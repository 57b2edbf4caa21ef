import SparqlTokens.Proofs.Sparql.LongestMatch
import SparqlTokens.Proofs.Sparql.PrefixedNames

/-! Dots behind names. A name may have dots inside, but no name ends with one, and no number begins
with a dot and a character that is no digit. So dots behind a name are left to stand by themselves,
however many there are, if what follows them cannot go on the name. -/
namespace SparqlTokens.Sparql

open Form Terminal

attribute [local irreducible] table Terminal.rule

variable {settings : Settings} {k : ℕ} {r : List Char}

theorem prefix_of_repeated {c : Char} {u : List Char} (h : u <+: List.replicate k c ++ r) :
    (∀ d ∈ u, d = c) ∨ ∃ d z, u = List.replicate k c ++ d :: z ∧ d :: z <+: r := by
  by_cases hlt : (List.replicate k c).length < u.length
  · exact Or.inr (prefix_beyond h hlt)
  · have hstart : u <+: List.replicate k c :=
      List.prefix_of_prefix_length_le h (List.prefix_append _ _) (not_lt.mp hlt)
    exact Or.inl fun d hd => List.eq_of_mem_replicate (hstart.subset hd)

/-! What no token goes on with -/

namespace Terminal

/-- An expression beside those of the token rules. -/
def beside (e : Expression) : Option Terminal → Expression
  | none => e
  | some T => T.form

def anything : Expression := many (.set (among []).compl)

theorem mem_anything (w : List Char) : w ∈ anything.language :=
  Expression.mem_many_set.mpr fun _ _ => mem_among_compl.mpr List.not_mem_nil

/-- The characters outside names and a list. -/
def outside (signs : List Char) : CharSet := (nameCharSet.union (among signs)).compl

theorem mem_outside {signs : List Char} {c : Char} :
    c ∈ outside signs ↔ c ∉ nameCharSet ∧ c ∉ signs := by
  have hname : nameCharSet.Ascending :=
    (Expression.letter?_spec (form_regular pnChars).wellFormed nameChars_letter).1
  have hsigns := (among_spec signs).1
  rw [outside, CharSet.mem_compl (CharSet.union_ascending hname hsigns),
    CharSet.mem_union hname hsigns, mem_among, not_or]

/-- A word before dots, or before any text that neither goes on a name nor begins with some signs,
with or without dots between them. -/
def dottedOn (T : Terminal) (signs : List Char) : Expression :=
  row [T.form, oneOf [many1 (.set (.single '.')),
    row [many (.set (.single '.')), .set (outside signs), anything]]]

theorem mem_dottedOn {T : Terminal} {signs w y : List Char} (hw : w ∈ T.words) (hy : y ≠ [])
    (h : (∀ d ∈ y, d = '.') ∨ ∃ dots d z, y = dots ++ d :: z ∧ (∀ e ∈ dots, e = '.') ∧
      d ∈ outside signs) : w ++ y ∈ (dottedOn T signs).language := by
  apply Language.append_mem_mul hw
  apply Expression.mem_ofBranches.mpr
  rcases h with hdots | ⟨dots, d, z, rfl, hdots, hd⟩
  · refine ⟨_, List.mem_cons_self, Expression.mem_many1_set.mpr ⟨hy, ?_⟩⟩
    intro d hd
    exact CharSet.mem_single.mpr (hdots d hd)
  · refine ⟨_, List.mem_cons_of_mem _ List.mem_cons_self, ?_⟩
    have hrow : dots ∈ (many (.set (.single '.'))).language := by
      apply Expression.mem_many_set.mpr
      intro e he
      exact CharSet.mem_single.mpr (hdots e he)
    have hstop : [d] ∈ (Expression.set (outside signs)).language := ⟨d, hd, rfl⟩
    exact Language.append_mem_mul hrow (Language.append_mem_mul hstop (mem_anything z))

/-- A dot before any text that does not begin with a digit. -/
def pointed : Expression := row [char '.', .set digits.compl, anything]

theorem mem_pointed {c : Char} (hc : c ∉ digits) (w : List Char) :
    '.' :: c :: w ∈ pointed.language := by
  have hdigits : digits.Ascending := by decide
  have hfirst : [c] ∈ (Expression.set digits.compl).language :=
    ⟨c, (CharSet.mem_compl hdigits).mpr hc, rfl⟩
  exact Language.append_mem_mul (a := ['.']) rfl
    (Language.append_mem_mul hfirst (mem_anything w))

/-- Rules for names that end before dots, with the signs that may go on a name besides the
characters of names. -/
structure NameRule (T : Terminal) (kind : Kind) (signs : List Char) : Prop where
  mem : T ∈ tokens
  not_comment : T ≠ comment
  not_ident : T ≠ ident
  start : (['"', '\'', '<'].all fun c => !T.form.heads.contains c) = true
  of_rule : ∀ lexeme, Kind.ofRule? T.name lexeme = some kind
  shown : kind.isTrivia = false
  ends : ∀ {S}, S ∈ tokens → ∀ {u}, u ∈ (dottedOn T signs).language → u ∉ S.words

theorem name_apart :
    Expression.isApartWith 10000 none (beside (dottedOn pnameLn ['.', ':', '%', '\\']))
      (none :: [pnameLn, pnameNs, ident, boolean].map some) = true := by
  decide +kernel

theorem prefixed_names : NameRule pnameLn .pnameLn ['.', ':', '%', '\\'] where
  mem := by decide
  not_comment := by decide
  not_ident := by decide
  start := by decide
  of_rule _ := rfl
  shown := rfl
  ends := never_token name_apart (fun _ => rfl) (by decide) (by decide) (by decide)

theorem label_apart : Expression.isApartWith 10000 none (beside (dottedOn blankNodeLabel ['.']))
    (none :: [blankNodeLabel, ident].map some) = true := by
  decide +kernel

theorem blank_node_labels : NameRule blankNodeLabel .blankNodeLabel ['.'] where
  mem := by decide
  not_comment := by decide
  not_ident := by decide
  start := by decide
  of_rule _ := rfl
  shown := rfl
  ends := never_token label_apart (fun _ => rfl) (by decide) (by decide) (by decide)

theorem pointed_apart : Expression.isApartWith 10000 none (beside pointed)
    (none :: [decimal, double, punct].map some) = true := by
  decide +kernel

theorem dot_ends {S : Terminal} (hS : S ∈ tokens) {w : List Char} (hw : w ∈ pointed.language) :
    w ∉ S.words :=
  never_token pointed_apart (fun _ => rfl) (by decide) (by decide) (by decide) hS hw

/-! Cuts -/

section Names

variable {T : Terminal} {kind : Kind} {signs : List Char} (hN : NameRule T kind signs)
  {w : List Char} (hw : w ∈ T.words)
include hN hw

theorem name_head {c : Char} (hc : c ∈ ['"', '\'', '<']) : w.head? ≠ some c := by
  intro h
  obtain ⟨v, rfl⟩ := List.head?_eq_some_iff.mp h
  have hmem : T.form.heads.contains c = true :=
    Expression.head_mem (form_regular T).wellFormed hw
  have hnot := List.all_eq_true.mp hN.start c hc
  rw [hmem] at hnot
  cases hnot

/-- A name is cut before dots and what cannot go on it. -/
theorem cut_before_dots (hr : ∀ c s, r = c :: s → c ∈ outside signs) :
    table.cut settings (w ++ (List.replicate k '.' ++ r)) = .ok ⟨kind, T.name, w⟩ := by
  have hadmitted : T.Admitted settings := Or.inr hN.not_comment
  have hcut := cut_extended (v := List.replicate k '.' ++ r) hN.mem hadmitted hw ?_ ?_ ?_
  · obtain ⟨m, hm, hlexeme, hrule | ⟨he, _⟩⟩ := hcut
    · exact cut_is hm hlexeme hrule (hN.of_rule _)
    · exact absurd he hN.not_ident
  · intro c hc h
    rcases hc with rfl | rfl
    · exact absurd h (name_head hN hw (by decide))
    · exact absurd h (name_head hN hw (by decide))
  · intro h
    exact absurd h (name_head hN hw (by decide))
  · intro S hS u hu hwS
    by_contra hlt
    obtain ⟨c, y, rfl, hy⟩ := prefix_beyond hu (not_le.mp hlt)
    refine hN.ends hS (mem_dottedOn hw (List.cons_ne_nil c y) ?_) hwS
    rcases prefix_of_repeated hy with hdots | ⟨d, z, heq, hz⟩
    · exact Or.inl hdots
    · obtain ⟨t, rfl⟩ := hz
      exact Or.inr ⟨_, d, z, heq, fun e he => List.eq_of_mem_replicate he, hr d _ rfl⟩

end Names

theorem cut_dot (hr : ∀ c s, r = c :: s → c ∉ digits) :
    table.cut settings ('.' :: r) = .ok ⟨.punctuation .dot, punct.name, ['.']⟩ := by
  have hsign : ['.'] ∈ punct.words := mem_punct.mpr (Or.inr ⟨'.', mem_among.mpr (by decide), rfl⟩)
  have hadmitted : punct.Admitted settings := Or.inr (by decide)
  have hcut := cut_extended (v := r) (by decide) hadmitted hsign ?_ ?_ ?_
  · obtain ⟨m, hm, hlexeme, hrule | ⟨he, _⟩⟩ := hcut
    · exact cut_is hm hlexeme hrule rfl
    · cases he
  · intro c hc h
    cases h
    exact absurd hc (by decide)
  · intro h
    cases h
  · intro S hS u hu hwS
    by_contra hlt
    obtain ⟨c, y, rfl, hy⟩ := prefix_beyond hu (not_le.mp hlt)
    obtain ⟨t, rfl⟩ := hy
    exact dot_ends hS (mem_pointed (hr c _ rfl) y) hwS

theorem digit_nameChar {c : Char} (hc : c ∈ digits) : c ∈ nameCharSet := by
  have hword : [c] ∈ pnChars.words :=
    Expression.mem_ofBranches.mpr ⟨.set digits, by decide, c, hc, rfl⟩
  obtain ⟨d, hd, heq⟩ := mem_pnChars.mp hword
  rwa [(List.cons.inj heq).1]

def dotCut : Cut := ⟨.punctuation .dot, "PUNCT", ['.']⟩

/-- Dots are cut one by one, if no digit follows the last. -/
theorem dots_lead (hr : ∀ c s, r = c :: s → c ∉ digits) : table.Leads settings
    (List.replicate k '.' ++ r) (List.replicate k dotCut) r := by
  induction k with
  | zero => rfl
  | succ k ih =>
    refine ⟨cut_dot ?_, List.replicate k '.' ++ r, rfl, ih⟩
    intro c s h
    cases k with
    | zero => exact hr c s h
    | succ k =>
      cases h
      decide

end Terminal

open Terminal

/-- Whatever the settings, reading a text begins with some tokens. -/
def BeginsWith (settings : Settings) (text : List Char) (cs : List Cut) : Prop :=
  ∃ (ts : List Token) (more : List Item),
    table.items settings text = ts.map .token ++ more ∧ ts.map Token.cut = cs

theorem begins_with {T : Terminal} {kind : Kind} {signs : List Char} (hN : NameRule T kind signs)
    {w : List Char} (hw : w ∈ T.words) (hr : ∀ c s, r = c :: s → c ∈ outside signs) :
    BeginsWith settings (w ++ List.replicate k '.' ++ r)
      (⟨kind, T.name, w⟩ :: List.replicate k dotCut) := by
  have hdigits : ∀ c s, r = c :: s → c ∉ digits := by
    intro c s h hdigit
    exact (mem_outside.mp (hr c s h)).1 (digit_nameChar hdigit)
  have hleads : table.Leads settings (w ++ (List.replicate k '.' ++ r))
      (⟨kind, T.name, w⟩ :: List.replicate k dotCut) r :=
    ⟨cut_before_dots hN hw hr, _, rfl, dots_lead hdigits⟩
  obtain ⟨ts, more, hitems, hcuts⟩ := Table.items_of_leads hleads
  rw [List.append_assoc]
  refine ⟨ts, more, hitems, hcuts.trans (List.filter_eq_self.mpr ?_)⟩
  intro c hc
  rcases List.mem_cons.mp hc with rfl | hc
  · simp [Scan.isShown, hN.shown]
  · rw [List.eq_of_mem_replicate hc]
    simp [Scan.isShown, dotCut, Kind.isTrivia]

/-- A text is empty or begins with a character that the rule for characters of names does not
accept, and that is none of some signs. -/
def Ends (signs r : List Char) : Prop :=
  ∀ c s, r = c :: s → table.check? [c] "PN_CHARS" = some false ∧ c ∉ signs

theorem outside_of_ends {signs : List Char} (h : Ends signs r) :
    ∀ c s, r = c :: s → c ∈ outside signs := by
  intro c s hr
  obtain ⟨hname, hsigns⟩ := h c s hr
  refine mem_outside.mpr ⟨?_, hsigns⟩
  intro hc
  exact (check?_false_iff pnChars [c]).mp hname (mem_pnChars.mpr ⟨c, hc, rfl⟩)

/-- Dots behind a prefixed name or the label of a blank node are tokens by themselves, whatever
dots, escapes and colons the name has, if nothing behind the dots can go on the name. -/
theorem trailing_dots (settings : Settings) (k : ℕ) (r : List Char) :
    (∀ p l : List Char, p = [] ∨ table.check? p "PN_PREFIX" = some true →
      table.check? l "PN_LOCAL" = some true → Ends ['.', ':', '%', '\\'] r →
      BeginsWith settings (p ++ ':' :: l ++ List.replicate k '.' ++ r)
        (⟨.pnameLn, "PNAME_LN", p ++ ':' :: l⟩ ::
          List.replicate k ⟨.punctuation .dot, "PUNCT", ['.']⟩)) ∧
    ∀ b : List Char, table.check? b "BLANK_NODE_LABEL" = some true → Ends ['.'] r →
      BeginsWith settings (b ++ List.replicate k '.' ++ r)
        (⟨.blankNodeLabel, "BLANK_NODE_LABEL", b⟩ ::
          List.replicate k ⟨.punctuation .dot, "PUNCT", ['.']⟩) := by
  refine ⟨?_, ?_⟩
  · intro p l hp hl hr
    have hstem : p = [] ∨ p ∈ pnPrefix.words := hp.imp_right (check?_iff pnPrefix p).mp
    have hw : p ++ ':' :: l ∈ pnameLn.words :=
      (pnameLn_iff (prefix_no_colon hstem)).mpr ⟨hstem, (check?_iff pnLocal l).mp hl⟩
    exact begins_with prefixed_names hw (outside_of_ends hr)
  · intro b hb hr
    have hw : b ∈ blankNodeLabel.words := (check?_iff blankNodeLabel b).mp hb
    exact begins_with blank_node_labels hw (outside_of_ends hr)

/-- The dots inside a name are its own, those behind it are not. -/
theorem dots_inside_and_behind :
    BeginsWith {} ([] ++ ':' :: ['1', '.', '2'] ++ List.replicate 2 '.' ++ ['\n'])
      (⟨.pnameLn, "PNAME_LN", [':', '1', '.', '2']⟩ ::
        List.replicate 2 ⟨.punctuation .dot, "PUNCT", ['.']⟩) ∧
    BeginsWith {} (['_', ':', '0'] ++ List.replicate 3 '.' ++ [])
      (⟨.blankNodeLabel, "BLANK_NODE_LABEL", ['_', ':', '0']⟩ ::
        List.replicate 3 ⟨.punctuation .dot, "PUNCT", ['.']⟩) := by
  have hdigit : ∀ c ∈ ['0', '1', '2'], [c] ∈ (Expression.set digits).language := by
    intro c hc
    have hall : (['0', '1', '2'].all digits.contains) = true := by decide
    exact ⟨c, List.all_eq_true.mp hall c hc, rfl⟩
  have hfirst : ['1'] ∈ localStart.language :=
    Expression.mem_ofBranches.mpr ⟨.set digits, by decide, hdigit '1' (by decide)⟩
  have hdot : ['.'] ∈ (oneOf (nameChars ++ [char '.', char ':', percent, localEscape])).language :=
    Expression.mem_ofBranches.mpr ⟨char '.', by decide, rfl⟩
  have hlast : ['2'] ∈ (oneOf (nameChars ++ [char ':', percent, localEscape])).language :=
    Expression.mem_ofBranches.mpr ⟨.set digits, by decide, hdigit '2' (by decide)⟩
  have htail : ['.', '2'] ∈ localTail.language := by
    refine Expression.mem_optional.mpr (Or.inr (Language.append_mem_mul (a := ['.']) ?_ hlast))
    rw [many, Expression.language_many]
    exact kstar_append hdot (Language.nil_mem_kstar _)
  have hlocal : ['1', '.', '2'] ∈ pnLocal.words := Language.append_mem_mul hfirst htail
  have hzero : ['0'] ∈ (oneOf (nameStarts ++ [.set digits])).language :=
    Expression.mem_ofBranches.mpr ⟨.set digits, by decide, hdigit '0' (by decide)⟩
  have hlabel : ['_', ':', '0'] ∈ blankNodeLabel.words :=
    Language.append_mem_mul (a := ['_', ':']) rfl
      (Language.append_mem_mul hzero (Expression.mem_optional.mpr (Or.inl rfl)))
  have hfeed : Ends ['.', ':', '%', '\\'] ['\n'] := by
    intro c s h
    cases h
    refine ⟨(check?_false_iff pnChars ['\n']).mpr ?_, by decide⟩
    intro hw
    exact word_lacks (by decide) hw List.mem_cons_self
  have hend : Ends ['.'] [] := by
    intro c s h
    cases h
  refine ⟨?_, ?_⟩
  · exact (trailing_dots {} 2 ['\n']).1 [] ['1', '.', '2'] (Or.inl rfl)
      ((check?_iff pnLocal _).mpr hlocal) hfeed
  · exact (trailing_dots {} 3 []).2 ['_', ':', '0'] ((check?_iff blankNodeLabel _).mpr hlabel) hend

end SparqlTokens.Sparql
