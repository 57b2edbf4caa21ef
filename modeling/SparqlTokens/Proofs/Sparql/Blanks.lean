import SparqlTokens.Proofs.Sparql.SingleTokens

/-! Blanks end tokens. The text behind a blank does not change what is cut before it, unless it
closes a bracket behind which only blanks stand, or goes on with a comment in its line. -/
namespace SparqlTokens.Sparql

open Form

attribute [local irreducible] table Terminal.rule

/-- A text of blanks. -/
def Blank (w : List Char) : Prop := ∀ c ∈ w, c ∈ [' ', '\t', '\r', '\n']

instance (w : List Char) : Decidable (Blank w) :=
  List.decidableBAll (· ∈ [' ', '\t', '\r', '\n']) w

theorem blank_nil : Blank [] := fun _ h => absurd h List.not_mem_nil

theorem blank_append {u v : List Char} : Blank (u ++ v) ↔ Blank u ∧ Blank v :=
  List.forall_mem_append

theorem blank_cons {c : Char} {w : List Char} :
    Blank (c :: w) ↔ c ∈ [' ', '\t', '\r', '\n'] ∧ Blank w := List.forall_mem_cons

theorem blanks_split {u v x y : List Char} {c d : Char} (hu : Blank u) (hv : Blank v)
    (hc : c ∉ [' ', '\t', '\r', '\n']) (hd : d ∉ [' ', '\t', '\r', '\n'])
    (h : u ++ c :: x = v ++ d :: y) : u = v ∧ c = d := by
  induction u generalizing v with
  | nil =>
    cases v with
    | nil => exact ⟨rfl, (List.cons.inj h).1⟩
    | cons b v =>
      rw [(List.cons.inj h).1] at hc
      exact absurd (blank_cons.mp hv).1 hc
  | cons a u ih =>
    cases v with
    | nil =>
      rw [← (List.cons.inj h).1] at hd
      exact absurd (blank_cons.mp hu).1 hd
    | cons b v =>
      obtain ⟨rfl, hrest⟩ := List.cons.inj h
      obtain ⟨rfl, hcd⟩ := ih (blank_cons.mp hu).2 (blank_cons.mp hv).2 hrest
      exact ⟨rfl, hcd⟩

def brackets : List (Char × Char) := [('(', ')'), ('[', ']')]

/-- Whether a text ends with an opening bracket and blanks, that alone, and another text begins with
blanks and the bracket that closes it. -/
def Bridged (r x : List Char) : Prop :=
  ∃ p ∈ brackets, ∃ before behind y, Blank before ∧ Blank behind ∧ r = p.1 :: before ∧
    x = behind ++ p.2 :: y

namespace Terminal

variable {T : Terminal} {w : List Char}

theorem mem_whitespace : w ∈ whitespace.words ↔ w ≠ [] ∧ Blank w := by
  refine Expression.mem_many1_set.trans (and_congr_right fun _ => ?_)
  exact forall₂_congr fun c _ => mem_among

theorem mem_inBrackets {opening closing : Char} : w ∈ (inBrackets opening closing).language ↔
    ∃ bl, Blank bl ∧ w = opening :: bl ++ [closing] := by
  refine mem_between.trans (exists_congr fun bl => and_congr_left fun _ => ?_)
  refine (Expression.mem_kstar_letters fun _ => Iff.rfl).trans ?_
  exact forall₂_congr fun c _ => mem_among

theorem mem_comment :
    w ∈ comment.words ↔ ∃ v, w = '#' :: v ∧ ∀ c ∈ v, c ∉ ['\r', '\n'] := by
  have hmany : ∀ v, v ∈ (many (.set (among ['\r', '\n']).compl)).language ↔
      ∀ c ∈ v, c ∉ ['\r', '\n'] := by
    intro v
    refine Expression.mem_many_set.trans ?_
    exact forall₂_congr fun c _ => mem_among_compl
  constructor
  · intro h
    obtain ⟨u, hu, v, hv, rfl⟩ := Language.mem_mul.mp h
    rw [show u = ['#'] from hu]
    exact ⟨v, rfl, (hmany v).mp hv⟩
  · rintro ⟨v, rfl, hv⟩
    exact Language.append_mem_mul (a := ['#']) rfl ((hmany v).mpr hv)

theorem blank_heads : ([' ', '\t', '\r', '\n'].all fun c => tokens.all fun S =>
    decide (S ∈ [whitespace]) || !S.form.heads.contains c) = true := by
  decide

theorem blank_begins (hT : T ∈ tokens) {c : Char} (hc : c ∈ [' ', '\t', '\r', '\n'])
    (hw : c :: w ∈ T.words) : T = whitespace := by
  have hheads := List.all_eq_true.mp blank_heads c hc
  exact List.mem_singleton.mp (begins_among hheads hT hw)

/-- The token rules with words that have blanks in them. -/
def spanning : List Terminal :=
  [string1, string2, stringLong1, stringLong2, nil, anon, whitespace, comment]

theorem spanning_complete : (tokens.all fun S => decide (S ∈ spanning) ||
    [' ', '\t', '\r', '\n'].all fun c => !S.form.alphabet.contains c) = true := by
  decide

theorem blank_within (hT : T ∈ tokens) (hw : w ∈ T.words) {c : Char} (hc : c ∈ w)
    (hblank : c ∈ [' ', '\t', '\r', '\n']) : T ∈ spanning := by
  have hletter : T.form.alphabet.contains c = true :=
    Expression.mem_alphabet (form_regular T).wellFormed hw hc
  have hcheck := List.all_eq_true.mp spanning_complete T hT
  rcases Bool.or_eq_true_iff.mp hcheck with h | h
  · exact of_decide_eq_true h
  · have hnot := List.all_eq_true.mp h c hblank
    rw [hletter] at hnot
    cases hnot

/-! Texts in quotes -/

def any : Expression := .set (among []).compl

/-- A word of a terminal, alone or with more behind it. -/
def extended (T : Terminal) : Bool → Expression
  | false => T.form
  | true => row [T.form, any, many any]

theorem quoted_extended : (quoted.all fun T =>
    Expression.isApartWith 10000 true T.extended [true, false]) = true := by
  decide

theorem extended_regular (hT : T ∈ quoted) (b : Bool) : (T.extended b).Regular := by
  have hall : ∀ S ∈ quoted, ∀ b, (S.extended b).isRegular = true := by decide
  exact Expression.regular_of_isRegular (hall T hT b)

/-- No word of a rule for texts in quotes goes on behind another. -/
theorem quoted_ends (hT : T ∈ quoted) {u v : List Char} (hu : u ∈ T.words) (hv : v ≠ []) :
    u ++ v ∉ T.words := by
  intro hw
  obtain ⟨c, v, rfl⟩ := List.exists_cons_of_ne_nil hv
  have hany : ∀ d : Char, d ∈ (among []).compl := fun d => mem_among_compl.mpr List.not_mem_nil
  have hmore : c :: v ∈ (row [any, many any]).language :=
    Language.append_mem_mul (a := [c]) ⟨c, hany c, rfl⟩
      (Expression.mem_many_set.mpr fun d _ => hany d)
  have hlong : u ++ c :: v ∈ (T.extended true).language := Language.append_mem_mul hu hmore
  have hapart := List.all_eq_true.mp quoted_extended T hT
  cases Expression.eq_of_isApartWith (fun b _ => extended_regular hT b) hapart (by decide)
    (by decide : false ∈ [true, false]) hlong hw

end Terminal

open Terminal

section Quotes

variable {settings : Settings} {c : Char} {S L T : Terminal} {r w : List Char}

/-- The rule that the opening quotes of a text call for. -/
def opened (S L : Terminal) (c : Char) (r : List Char) : Terminal := if [c, c] <+: r then L else S

theorem cut_opened (hQ : Quotes c S L) : (∃ f, table.cut settings (c :: r) = .error f) ↔
    ¬ ∃ u, u <+: c :: r ∧ u ∈ (opened S L c r).words := by
  rw [← noMatch_iff, opened]
  split
  · next h =>
    obtain ⟨body, rfl⟩ := h
    rw [hQ.long_name]
    constructor
    · rintro ⟨f, hf⟩
      exact ((cut_long hQ rfl).mp hf).1
    · intro hno
      exact ⟨_, (cut_long hQ rfl).mpr ⟨hno, rfl⟩⟩
  · next h =>
    rw [hQ.short_name]
    constructor
    · rintro ⟨f, hf⟩
      exact ((cut_short hQ rfl h).mp hf).1
    · intro hno
      exact ⟨_, (cut_short hQ rfl h).mpr ⟨hno, rfl⟩⟩

theorem opened_word (hQ : Quotes c S L) (hT : T ∈ tokens) (hw : c :: w ∈ T.words) :
    T = opened S L c w := by
  have honly := hQ.only T hT w hw
  simp only [List.mem_cons, List.not_mem_nil, or_false] at honly
  rw [opened]
  rcases honly with rfl | rfl
  · rw [hQ.short_words] at hw
    have hsingle := short_before (no_escape hQ.kind) (v := []) hw (by simp)
    rw [List.append_nil] at hsingle
    rw [if_neg hsingle]
  · rw [hQ.long_words] at hw
    obtain ⟨body, _, heq⟩ := mem_long.mp hw
    have htriple : [c, c] <+: w := ⟨body ++ [c, c, c], (List.cons.inj heq).2.symm⟩
    rw [if_pos htriple]

theorem opened_append {d : Char} (hd : d ≠ c) (x : List Char) :
    opened S L c (r ++ d :: x) = opened S L c r := by
  have hsame : [c, c] <+: r ++ d :: x ↔ [c, c] <+: r := by
    match r with
    | [] => simp [List.cons_prefix_cons, hd.symm]
    | [a] => simp [List.cons_prefix_cons, hd.symm]
    | a :: b :: s => simp [List.cons_prefix_cons]
  rw [opened, opened]
  exact if_congr hsame rfl rfl

end Quotes

section Seams

variable {settings : Settings} {r x y : List Char} {c d : Char} {k : Cut} {T : Terminal}

theorem quote_not_blank {quote : Char} (hq : quote = '"' ∨ quote = '\'')
    (hd : d ∈ [' ', '\t', '\r', '\n']) : d ≠ quote := by
  rintro rfl
  rcases hq with rfl | rfl
  · exact absurd hd (by decide)
  · exact absurd hd (by decide)

/-- Before a blank, a text in quotes has been cut by the rule that its opening quotes call for. -/
theorem quotes_before_blank (hk : table.cut settings (c :: r) = .ok k) (hq : c = '"' ∨ c = '\'')
    (hd : d ∈ [' ', '\t', '\r', '\n']) :
    (∀ f, table.cut settings (c :: (r ++ d :: x)) ≠ .error f) ∧
      ∀ T ∈ tokens, c :: (r ++ d :: x) ∉ T.words := by
  obtain ⟨S, L, hQ⟩ := quotes_of hq
  have hdc : d ≠ c := quote_not_blank hq hd
  have hmatch : ∃ u, u <+: c :: r ∧ u ∈ (opened S L c r).words := by
    by_contra hno
    have hfails : ∃ f, table.cut settings (c :: r) = .error f := (cut_opened hQ).mpr hno
    obtain ⟨f, hf⟩ := hfails
    rw [hk] at hf
    cases hf
  obtain ⟨u, ⟨v, huv⟩, hu⟩ := hmatch
  have hlonger : u ++ (v ++ d :: x) = c :: (r ++ d :: x) := by
    rw [← List.append_assoc, huv]
    rfl
  constructor
  · intro f hf
    apply (cut_opened hQ).mp ⟨f, hf⟩
    rw [opened_append hdc]
    exact ⟨u, ⟨v ++ d :: x, hlonger⟩, hu⟩
  · intro T hT hw
    have hopened := opened_word hQ hT hw
    rw [opened_append hdc] at hopened
    have hquoted : T ∈ quoted := quoted_of_head hT hq hw
    rw [← hopened] at hu
    rw [← hlonger] at hw
    exact quoted_ends hquoted hu (by simp) hw

theorem brackets_over_blank {p : Char × Char} (hp : p ∈ brackets) (hr : r ≠ [])
    (hd : d ∈ [' ', '\t', '\r', '\n']) (hw : r ++ d :: y ∈ (inBrackets p.1 p.2).language)
    (z : List Char) : Bridged r (y ++ z) := by
  obtain ⟨bl, hbl, heq⟩ := mem_inBrackets.mp hw
  obtain ⟨a, s, rfl⟩ := List.exists_cons_of_ne_nil hr
  obtain ⟨rfl, htail⟩ := List.cons.inj heq
  have hclosing : p.2 ∉ [' ', '\t', '\r', '\n'] := by
    have hall : ∀ p ∈ brackets, p.2 ∉ [' ', '\t', '\r', '\n'] := by decide
    exact hall p hp
  rcases List.eq_nil_or_concat y with rfl | ⟨t, e, rfl⟩
  · have hlast := (List.append_inj' htail rfl).2
    rw [(List.cons.inj hlast).1] at hd
    exact absurd hd hclosing
  · have hsplit : (s ++ d :: t) ++ [e] = bl ++ [p.2] := by simpa using htail
    obtain ⟨rfl, hlast⟩ := List.append_inj' hsplit rfl
    obtain ⟨hs, hdt⟩ := blank_append.mp hbl
    refine ⟨p, hp, s, t, z, hs, (blank_cons.mp hdt).2, rfl, ?_⟩
    rw [(List.cons.inj hlast).1]
    simp

theorem word_over_blank (hT : T ∈ tokens) (hr : r ≠ []) (hd : d ∈ [' ', '\t', '\r', '\n'])
    (hw : r ++ d :: y ∈ T.words) : T ∈ [string1, string2, stringLong1, stringLong2] ∨
      (∀ z, Bridged r (y ++ z)) ∨ Blank r ∨ T = comment ∧ d ≠ '\n' ∧ r.head? = some '#' := by
  have hspan : T ∈ spanning := blank_within hT hw (List.mem_append_right r List.mem_cons_self) hd
  have hcases : T ∈ [string1, string2, stringLong1, stringLong2] ∨ T = nil ∨ T = anon ∨
      T = whitespace ∨ T = comment := by
    simpa [spanning, or_assoc] using hspan
  rcases hcases with h | rfl | rfl | rfl | rfl
  · exact Or.inl h
  · have hp : ('(', ')') ∈ brackets := by decide
    exact Or.inr (Or.inl (brackets_over_blank hp hr hd hw))
  · have hp : ('[', ']') ∈ brackets := by decide
    exact Or.inr (Or.inl (brackets_over_blank hp hr hd hw))
  · exact Or.inr (Or.inr (Or.inl (blank_append.mp (mem_whitespace.mp hw).2).1))
  · obtain ⟨v, heq, hv⟩ := mem_comment.mp hw
    obtain ⟨a, s, rfl⟩ := List.exists_cons_of_ne_nil hr
    obtain ⟨rfl, rfl⟩ := List.cons.inj heq
    have hline := hv d (List.mem_append_right s List.mem_cons_self)
    refine Or.inr (Or.inr (Or.inr ⟨rfl, ?_, rfl⟩))
    rintro rfl
    exact hline (by decide)

/-- Nothing is wrong before a blank at the start of a text from which a token is cut. -/
theorem no_error_before_blank (hk : table.cut settings r = .ok k)
    (hd : d ∈ [' ', '\t', '\r', '\n']) (f : Failure) :
    table.cut settings (r ++ d :: x) ≠ .error f := by
  intro hf
  obtain ⟨T, hT, ha, _, hw⟩ := cut_lexeme hk
  obtain ⟨hne, v, rfl⟩ := Table.cut_cuts hk
  obtain ⟨c, u, hcu⟩ := List.exists_cons_of_ne_nil hne
  rw [hcu] at hk hf hw
  by_cases hq : c = '"' ∨ c = '\''
  · exact (quotes_before_blank hk hq hd).1 f hf
  by_cases hb : c = '<'
  · subst hb
    have hopen := ((cut_bracket rfl).mp hf).1
    have hall := List.all_eq_true.mp (Bool.and_eq_true_iff.mp hopen).1
    have hchar := hall d (List.mem_append_right _ List.mem_cons_self)
    simp only [List.mem_cons, List.not_mem_nil, or_false] at hd
    rcases hd with rfl | rfl | rfl | rfl
    all_goals cases hchar
  · rw [List.append_assoc] at hf
    exact other_no_error hT ha hq hb hw hf

/-- No word that begins before a blank is longer than what is cut before the blank. -/
theorem longest_before_blank (hk : table.cut settings r = .ok k)
    (hd : d ∈ [' ', '\t', '\r', '\n']) (hr : ¬ Blank r)
    (hcomment : d = '\n' ∨ k.rule ≠ "COMMENT") (hx : ¬ Bridged r x) {S : Terminal}
    (hS : S ∈ tokens) (haS : S.Admitted settings) {t : List Char} (ht : t <+: r ++ d :: x)
    (hwS : t ∈ S.words) : t.length ≤ k.lexeme.length := by
  rcases Nat.lt_or_ge r.length t.length with hlt | hle
  · exfalso
    obtain ⟨T, hT, _, hrule, hw⟩ := cut_lexeme hk
    obtain ⟨hne, v, rfl⟩ := Table.cut_cuts hk
    obtain ⟨c, u, hcu⟩ := List.exists_cons_of_ne_nil hne
    rw [hcu] at hk hr hx ht hlt hw
    obtain ⟨e, z, rfl, hz⟩ := prefix_beyond ht hlt
    obtain ⟨rfl, y, rfl⟩ := List.cons_prefix_cons.mp hz
    rcases word_over_blank hS (List.cons_ne_nil c _) hd hwS with h | h | h | ⟨rfl, hline, hhead⟩
    · exact (quotes_before_blank hk (quoted_word h hwS) hd).2 S hS hwS
    · exact hx (h y)
    · exact hr h
    · -- the comment has been begun, so it is what was cut
      cases hhead
      have honly : T ∈ [comment] := begins_only (by decide) hT hw
      rw [List.mem_singleton.mp honly] at hrule
      exact hcomment.elim hline fun h => h hrule
  · have hstart : t <+: r := List.prefix_of_prefix_length_le ht (List.prefix_append _ _) hle
    exact (cut_munched hk).longest t hstart (accepted_iff.mpr ⟨S, hS, haS, hwS⟩)

/-- A token cut from a text that a blank ends is cut in the same way whatever follows the blank,
unless the text is blanks, or a comment in the same line, or the brackets close. -/
theorem cut_before_blank (hk : table.cut settings r = .ok k) (hd : d ∈ [' ', '\t', '\r', '\n'])
    (hr : ¬ Blank r) (hcomment : d = '\n' ∨ k.rule ≠ "COMMENT") (hx : ¬ Bridged r x) :
    table.cut settings (r ++ d :: x) = .ok k := by
  have hmunched := cut_munched hk
  cases hm : table.cut settings (r ++ d :: x) with
  | error f => exact absurd hm (no_error_before_blank hk hd f)
  | ok m =>
    obtain ⟨S, hS, haS, _, hwS⟩ := cut_lexeme hm
    have hstart : k.lexeme <+: r ++ d :: x := hmunched.start.trans (List.prefix_append _ _)
    have hle := longest_before_blank hk hd hr hcomment hx hS haS (cut_munched hm).start hwS
    have hge := (cut_munched hm).longest k.lexeme hstart hmunched.accepted
    have hlexeme : m.lexeme = k.lexeme :=
      (List.prefix_of_prefix_length_le (cut_munched hm).start hstart hle).eq_of_length
        (le_antisymm hle hge)
    rw [cut_eq_of_lexeme hm hk hlexeme]

theorem cut_blanks {bl : List Char} (hne : bl ≠ []) (hbl : Blank bl)
    (hr : ∀ c s, r = c :: s → c ∉ [' ', '\t', '\r', '\n']) :
    table.cut settings (bl ++ r) = .ok ⟨.whitespace, "WHITESPACE", bl⟩ := by
  have hword : bl ∈ whitespace.words := mem_whitespace.mpr ⟨hne, hbl⟩
  obtain ⟨b, s, rfl⟩ := List.exists_cons_of_ne_nil hne
  have hb := (blank_cons.mp hbl).1
  have hadmitted : whitespace.Admitted settings := Or.inr (by decide)
  have hcut := cut_extended (v := r) (by decide) hadmitted hword ?_ ?_ ?_
  · obtain ⟨k, hk, hlexeme, hrule | ⟨he, _⟩⟩ := hcut
    · exact cut_is hk hlexeme hrule rfl
    · cases he
  · intro c hc hhead
    cases hhead
    exact absurd rfl (quote_not_blank hc hb)
  · intro hhead
    cases hhead
    exact absurd hb (by decide)
  · intro S hS u hu hwS
    by_contra hlt
    obtain ⟨c, y, rfl, hy⟩ := prefix_beyond hu (not_le.mp hlt)
    obtain ⟨t, ht⟩ := hy
    have hS' : S = whitespace := blank_begins hS hb hwS
    rw [hS'] at hwS
    have hblank := (blank_append.mp (mem_whitespace.mp hwS).2).2
    exact hr c _ ht.symm (blank_cons.mp hblank).1

end Seams

end SparqlTokens.Sparql
