import SparqlTokens.Proofs.Lexing.Selection
import SparqlTokens.Proofs.Sparql.Table

/-! What the token rules of the grammar take off the front of a text: the longest start that the
terminal describes. Only the words for the truth values may be left alone, before a name that goes
on, and then the rule for names takes more. -/
namespace SparqlTokens.Sparql.Terminal

open Expression (startLengths)

-- proofs follow the lemmas about them, and never what they compute
attribute [local irreducible] table rule

def words (T : Terminal) : Language Char := T.form.language

theorem all_steady : (all.all fun T => T.form.isSteadyWith 10000) = true := by
  decide +kernel

theorem form_steady (T : Terminal) : T.form.Steady :=
  Expression.steady_of_isSteadyWith (List.all_eq_true.mp all_steady T (mem_all T))

theorem form_regular (T : Terminal) : T.form.Regular := (form_steady T).toRegular

theorem accepts_iff (T : Terminal) (w : List Char) : T.rule.accepts w = true ↔ w ∈ T.words :=
  Rule.accepts_iff (rule_follows T) (form_regular T) w

theorem check?_iff (T : Terminal) (w : List Char) :
    table.check? w T.name = some true ↔ w ∈ T.words := by
  rw [Table.check?, rule?_name, Option.map_some, Option.some.injEq, accepts_iff]

theorem leadingLength?_iff (T : Terminal) {text : List Char} {n : ℕ} :
    T.rule.leadingLength? text = some n ↔ IsGreatest (startLengths T.words text) n :=
  Rule.leadingLength?_iff (rule_follows T) (form_steady T)

theorem leadingLength?_isSome_iff (T : Terminal) {text : List Char} :
    (T.rule.leadingLength? text).isSome ↔ ∃ u, u <+: text ∧ u ∈ T.words :=
  Rule.leadingLength?_isSome_iff (rule_follows T) (form_regular T)

/-- Some characters, each with all token rules that have words which begin with it. -/
def openers : List (Char × List Terminal) := [
  ('"', [string2, stringLong2]), ('\'', [string1, stringLong1]), ('<', [iriref, punct]),
  ('^', [punct]), ('#', [comment])]

theorem openers_complete : (openers.all fun p =>
    tokens.all fun S => decide (S ∈ p.2) || !S.form.heads.contains p.1) = true := by
  decide

theorem begins_among {c : Char} {only : List Terminal}
    (h : (tokens.all fun S => decide (S ∈ only) || !S.form.heads.contains c) = true)
    {S : Terminal} (hS : S ∈ tokens) {w : List Char} (hw : c :: w ∈ S.words) : S ∈ only := by
  have hhead : S.form.heads.contains c = true :=
    Expression.head_mem (form_regular S).wellFormed hw
  have hcheck := List.all_eq_true.mp h S hS
  rw [hhead, Bool.not_true, Bool.or_false] at hcheck
  exact of_decide_eq_true hcheck

theorem begins_only {c : Char} {only : List Terminal} (h : (c, only) ∈ openers) {S : Terminal}
    (hS : S ∈ tokens) {w : List Char} (hw : c :: w ∈ S.words) : S ∈ only :=
  begins_among (List.all_eq_true.mp openers_complete _ h) hS hw

/-! Words and names -/

def nameStartSet : CharSet := Form.nameBase.union (.single '_')

def nameCharSet : CharSet :=
  Form.nameBase.union ((CharSet.single '_').union ((CharSet.single '-').union (Form.digits.union
    ((CharSet.single '\u00b7').union (Form.combining.union Form.ties)))))

theorem nameStarts_letter : (Form.oneOf Form.nameStarts).letter? = some nameStartSet := rfl

theorem nameChars_letter : (Form.oneOf Form.nameChars).letter? = some nameCharSet := rfl

theorem nameStart_ascending : nameStartSet.Ascending :=
  (Expression.letter?_spec (form_regular pnCharsU).wellFormed nameStarts_letter).1

theorem mem_pnCharsU {w : List Char} : w ∈ pnCharsU.words ↔ ∃ c ∈ nameStartSet, w = [c] :=
  (Expression.letter?_spec (form_regular pnCharsU).wellFormed nameStarts_letter).2 w

theorem mem_pnChars {w : List Char} : w ∈ pnChars.words ↔ ∃ c ∈ nameCharSet, w = [c] :=
  (Expression.letter?_spec (form_regular pnChars).wellFormed nameChars_letter).2 w

theorem mem_ident {w : List Char} :
    w ∈ ident.words ↔ ∃ c v, w = c :: v ∧ c ∈ nameStartSet ∧ ∀ d ∈ v, d ∈ nameCharSet := by
  have hmany : ∀ v, v ∈ (Form.many (Form.oneOf Form.nameChars)).language ↔
      ∀ d ∈ v, d ∈ nameCharSet := by
    intro v
    rw [Form.many, Expression.language_many]
    exact Expression.mem_kstar_letters fun _ => mem_pnChars
  constructor
  · intro h
    obtain ⟨u, hu, v, hv, rfl⟩ := Language.mem_mul.mp h
    obtain ⟨c, hc, rfl⟩ := mem_pnCharsU.mp hu
    exact ⟨c, v, rfl, hc, (hmany v).mp hv⟩
  · rintro ⟨c, v, rfl, hc, hv⟩
    exact Language.mem_mul.mpr ⟨[c], mem_pnCharsU.mpr ⟨c, hc, rfl⟩, v, (hmany v).mpr hv, rfl⟩

theorem mem_boolean {w : List Char} :
    w ∈ boolean.words ↔ w = ['t', 'r', 'u', 'e'] ∨ w = ['f', 'a', 'l', 's', 'e'] := Iff.rfl

theorem ident_word {c : Char} {v : List Char} (hc : nameStartSet.contains c = true)
    (hv : v.all nameCharSet.contains = true) : c :: v ∈ ident.words :=
  mem_ident.mpr ⟨c, v, rfl, hc, List.all_eq_true.mp hv⟩

theorem nameBase_ascending : Form.nameBase.Ascending := (Form.within_spec (by decide)).1

theorem letter_nameBase {c : Char} (h : c ∈ Form.letters) : c ∈ Form.nameBase := by
  obtain ⟨r, hr, hc⟩ := ((Form.within_spec (by decide)).2 c).mp h
  exact ((Form.within_spec (by decide)).2 c).mpr ⟨r, List.mem_append_left _ hr, hc⟩

theorem nameChar_base {c : Char} (h : c ∈ Form.nameBase) : c ∈ nameCharSet := by
  have hw : [c] ∈ pnChars.words := Expression.mem_ofBranches.mpr
    ⟨.set Form.nameBase, List.mem_cons_self, c, h, rfl⟩
  obtain ⟨d, hd, heq⟩ := mem_pnChars.mp hw
  rwa [(List.cons.inj heq).1]

theorem letters_ident {w : List Char} (hne : w ≠ []) (hw : w.all Form.letters.contains = true) :
    w ∈ ident.words := by
  have h : ∀ c ∈ w, c ∈ Form.letters := List.all_eq_true.mp hw
  obtain ⟨c, v, rfl⟩ := List.exists_cons_of_ne_nil hne
  refine mem_ident.mpr ⟨c, v, rfl, ?_, ?_⟩
  · exact (CharSet.mem_union nameBase_ascending (CharSet.single_ascending '_')).mpr
      (Or.inl (letter_nameBase (h c List.mem_cons_self)))
  · intro d hd
    exact nameChar_base (letter_nameBase (h d (List.mem_cons_of_mem c hd)))

theorem boolean_ident {w : List Char} (h : w ∈ boolean.words) : w ∈ ident.words := by
  rcases mem_boolean.mp h with rfl | rfl
  · exact letters_ident (by decide) rfl
  · exact letters_ident (by decide) rfl

theorem boolean_continued {w : List Char} {c : Char} (h : w ∈ boolean.words)
    (hc : c ∈ nameCharSet) : w ++ [c] ∈ ident.words := by
  obtain ⟨d, v, rfl, hd, hv⟩ := mem_ident.mp (boolean_ident h)
  refine mem_ident.mpr ⟨d, v ++ [c], rfl, hd, ?_⟩
  intro e he
  rcases List.mem_append.mp he with he | he
  · exact hv e he
  · rw [List.mem_singleton.mp he]
    exact hc

theorem continuesName_iff {rest : List Char} :
    table.continuesName rest = true ↔ ∃ c r, rest = c :: r ∧ c ∈ nameCharSet := by
  have hrule : table.rule? "PN_CHARS" = some pnChars.rule := rule?_name pnChars
  rw [Table.continuesName, hrule]
  refine (leadingLength?_isSome_iff pnChars).trans ?_
  constructor
  · rintro ⟨u, ⟨r, rfl⟩, hu⟩
    obtain ⟨c, hc, rfl⟩ := mem_pnChars.mp hu
    exact ⟨c, r, rfl, hc⟩
  · rintro ⟨c, r, rfl, hc⟩
    exact ⟨[c], ⟨r, rfl⟩, mem_pnChars.mpr ⟨c, hc, rfl⟩⟩

/-! Candidates -/

theorem name_boolean {T : Terminal} : T.rule.name = "BooleanLiteral" ↔ T = boolean := by
  rw [rule_name]
  exact name_injective.eq_iff' rfl

theorem name_comment {T : Terminal} : T.rule.name = "COMMENT" ↔ T = comment := by
  rw [rule_name]
  exact name_injective.eq_iff' rfl

variable {T : Terminal} {rest : List Char}

theorem candidate?_spec {c : Candidate} (h : table.candidate? rest T.rule = some c) :
    c.rule = T.rule ∧ c.lexeme ∈ T.words ∧
      ∀ u, u <+: rest → u ∈ T.words → u.length ≤ c.lexeme.length := by
  obtain ⟨n, hn, _, _, hc⟩ := Table.candidate?_iff.mp h
  obtain ⟨⟨w, hw, hwords, hlen⟩, hmax⟩ := (leadingLength?_iff T).mp hn
  have htake : rest.take n = w := by
    rw [← hlen]
    exact (List.prefix_iff_eq_take.mp hw).symm
  rw [htake] at hc
  rw [hc]
  refine ⟨rfl, hwords, ?_⟩
  intro u hu huwords
  have hle : u.length ≤ n := hmax ⟨u, hu, huwords, rfl⟩
  exact hle.trans hlen.ge

/-- A word at the start of a text makes its rule a candidate, unless it is a truth value and a name
goes on behind it. -/
theorem candidate?_word {u : List Char} (hu : u <+: rest) (hw : u ∈ T.words) (hne : u ≠ []) :
    (∃ c, table.candidate? rest T.rule = some c) ∨
      T = boolean ∧ ∃ w, u.length < w.length ∧ w <+: rest ∧ w ∈ ident.words := by
  have hsome : (T.rule.leadingLength? rest).isSome :=
    (leadingLength?_isSome_iff T).mpr ⟨u, hu, hw⟩
  obtain ⟨n, hn⟩ := Option.isSome_iff_exists.mp hsome
  obtain ⟨⟨w, hwrest, hwwords, hlen⟩, hmax⟩ := (leadingLength?_iff T).mp hn
  have hle : u.length ≤ n := hmax ⟨u, hu, hw, rfl⟩
  have hpos : n ≠ 0 := by
    have := List.length_pos_of_ne_nil hne
    omega
  by_cases hleft : T.rule.name = "BooleanLiteral" ∧ table.continuesName (rest.drop n) = true
  · have hbool : T = boolean := name_boolean.mp hleft.1
    obtain ⟨c, r, hdrop, hc⟩ := continuesName_iff.mp hleft.2
    have hsplit : rest = w ++ c :: r := by
      rw [← hdrop, ← hlen]
      exact (List.prefix_iff_eq_append.mp hwrest).symm
    rw [hbool] at hwwords
    refine Or.inr ⟨hbool, w ++ [c], ?_, ?_, boolean_continued hwwords hc⟩
    · rw [List.length_append, hlen, List.length_singleton]
      omega
    · rw [hsplit]
      exact ⟨r, List.append_assoc w [c] r⟩
  · exact Or.inl ⟨_, Table.candidate?_iff.mpr ⟨n, hn, hpos, hleft, rfl⟩⟩

end SparqlTokens.Sparql.Terminal
