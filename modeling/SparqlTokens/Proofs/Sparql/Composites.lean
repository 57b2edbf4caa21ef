import SparqlTokens.Proofs.Sparql.SingleTokens

/-! The rules for values: most describe the words of several token rules, and a literal may take up
to three tokens. Such a rule accepts a text as a whole if and only if reading the text gives tokens
of that shape, so nothing is lost where tokens meet. -/
namespace SparqlTokens.Sparql

open Form

attribute [local irreducible] table Terminal.rule

namespace Terminal

theorem mem_rdfLiteral {w : List Char} : w ∈ rdfLiteral.words ↔
    ∃ s ∈ string.words, ∃ v, w = s ++ v ∧
      (v = [] ∨ v ∈ langTag.words ∨ ∃ i ∈ iri.words, v = '^' :: '^' :: i) := by
  have hdatatype : ∀ v, v ∈ (row [.text ['^', '^'],
      oneOf [Form.iriref, Form.prefixedName]]).language ↔ ∃ i ∈ iri.words, v = '^' :: '^' :: i := by
    intro v
    constructor
    · intro h
      obtain ⟨u, hu, i, hi, rfl⟩ := Language.mem_mul.mp h
      rw [show u = ['^', '^'] from hu]
      exact ⟨i, hi, rfl⟩
    · rintro ⟨i, hi, rfl⟩
      exact Language.append_mem_mul (a := ['^', '^']) rfl hi
  have htail : ∀ v, v ∈ (Form.optional (oneOf [Form.langTag,
      row [.text ['^', '^'], oneOf [Form.iriref, Form.prefixedName]]])).language ↔
      v = [] ∨ v ∈ langTag.words ∨ ∃ i ∈ iri.words, v = '^' :: '^' :: i := by
    intro v
    rw [← hdatatype]
    exact Expression.mem_optional
  constructor
  · intro h
    obtain ⟨s, hs, v, hv, rfl⟩ := Language.mem_mul.mp h
    exact ⟨s, hs, v, rfl, (htail v).mp hv⟩
  · rintro ⟨s, hs, v, rfl, hv⟩
    exact Language.append_mem_mul hs ((htail v).mpr hv)

theorem mem_dataBlockValue {w : List Char} : w ∈ dataBlockValue.words ↔
    w ∈ iri.words ∨ w ∈ rdfLiteral.words ∨ w ∈ numeric.words ∨ w ∈ boolean.words ∨
      w = ['U', 'N', 'D', 'E', 'F'] := by
  have hiri : w ∈ iri.words ↔ ∃ e ∈ [Form.iriref, Form.prefixedName], w ∈ e.language :=
    Expression.mem_ofBranches
  have hnumeric : w ∈ numeric.words ↔ ∃ e ∈ Form.numeric, w ∈ e.language :=
    Expression.mem_ofBranches
  have hboolean : w ∈ boolean.words ↔ ∃ e ∈ booleans, w ∈ e.language :=
    Expression.mem_ofBranches
  have hform : w ∈ dataBlockValue.words ↔
      ∃ e ∈ [Form.iriref, Form.prefixedName] ++ ([literal] ++ (Form.numeric ++ (booleans ++
        [Expression.text ['U', 'N', 'D', 'E', 'F']]))), w ∈ e.language :=
    Expression.mem_ofBranches
  have hliteral : w ∈ literal.language ↔ w ∈ rdfLiteral.words := Iff.rfl
  have hundef : w ∈ (Expression.text ['U', 'N', 'D', 'E', 'F']).language ↔
      w = ['U', 'N', 'D', 'E', 'F'] := Iff.rfl
  rw [hform, hiri, hnumeric, hboolean, ← hliteral, ← hundef]
  simp only [List.mem_append, List.mem_singleton, or_and_right, exists_or, exists_eq_left]

/-! Behind a text in quotes -/

theorem mem_string {w : List Char} : w ∈ string.words ↔ ∃ T ∈ quoted, w ∈ T.words :=
  mem_union (by decide)

/-- The rules for texts in quotes, and such a text before a sign that joins it to what follows. -/
def joined : Option Terminal → Expression
  | none => row [oneOf strings, .set (among ['@', '^']), many (.set (among []).compl)]
  | some T => T.form

theorem never_joined :
    Expression.isApartWith 10000 none joined (none :: quoted.map some) = true := by
  decide

theorem mem_joined {s r : List Char} (hs : s ∈ string.words) {c : Char} (hc : c = '@' ∨ c = '^') :
    s ++ c :: r ∈ (joined none).language := by
  have hsign : [c] ∈ (Expression.set (among ['@', '^'])).language :=
    ⟨c, mem_among.mpr (by simpa using hc), rfl⟩
  have hrest : r ∈ (many (.set (among []).compl)).language := by
    rw [many, Expression.language_many]
    refine (Expression.mem_kstar_letters (s := (among []).compl) fun w => Iff.rfl).mpr ?_
    exact fun d _ => mem_among_compl.mpr List.not_mem_nil
  exact Language.append_mem_mul hs (Language.append_mem_mul hsign hrest)

theorem string_head {w : List Char} (hw : w ∈ string.words) :
    ∃ c u, w = c :: u ∧ (c = '"' ∨ c = '\'') := by
  obtain ⟨T, hT, hw⟩ := mem_string.mp hw
  have hsub : ∀ S ∈ quoted, S ∈ tokens ∧ S ∈ [string1, string2, stringLong1, stringLong2] := by
    decide
  obtain ⟨c, u, rfl⟩ := List.exists_cons_of_ne_nil (token_nonempty (hsub T hT).1 hw)
  exact ⟨c, u, rfl, quoted_word (hsub T hT).2 hw⟩

/-- No token goes on behind a complete text in quotes with a sign that joins it to what follows. -/
theorem string_complete {s r : List Char} (hs : s ∈ string.words) {c : Char} (hc : c = '@' ∨ c = '^')
    {T : Terminal} (hT : T ∈ tokens) : s ++ c :: r ∉ T.words :=
  never_token never_joined (fun _ => rfl) (by decide) (by decide) (by decide) hT (mem_joined hs hc)

theorem cut_string {settings : Settings} (hc : settings.comments = true) {s v : List Char}
    (hs : s ∈ string.words) (hv : v = [] ∨ ∃ c r, v = c :: r ∧ (c = '@' ∨ c = '^')) :
    ∃ k, table.cut settings (s ++ v) = .ok k ∧ k.lexeme = s ∧ k.rule ∈ quoted.map name := by
  obtain ⟨T, hT, hw⟩ := mem_string.mp hs
  have hsub : ∀ S ∈ quoted, S ∈ tokens ∧ S ≠ ident := by decide
  obtain ⟨q, u, hqu, hq⟩ := string_head hs
  have hcut := cut_extended (hsub T hT).1 (Or.inl hc) (v := v) hw ?_ ?_ ?_
  · obtain ⟨k, hk, hlexeme, hrule | ⟨he, _⟩⟩ := hcut
    · exact ⟨k, hk, hlexeme, hrule ▸ List.mem_map_of_mem hT⟩
    · exact absurd he (hsub T hT).2
  · intro c hc _ hhead
    rcases hv with rfl | ⟨d, r, rfl, hd⟩
    · cases hhead
    · cases hhead
      rcases hc with rfl | rfl
      · exact absurd hd (by decide)
      · exact absurd hd (by decide)
  · intro hbracket
    rw [hqu] at hbracket
    cases hbracket
    exact absurd hq (by decide)
  · intro S hS w hwv hwS
    by_contra hlt
    obtain ⟨c, x, rfl, hx⟩ := prefix_beyond hwv (not_le.mp hlt)
    rcases hv with rfl | ⟨d, r, rfl, hd⟩
    · cases List.prefix_nil.mp hx
    · obtain ⟨rfl, _⟩ := List.cons_prefix_cons.mp hx
      exact string_complete hs hd hS hwS

theorem cut_carets {settings : Settings} (hc : settings.comments = true) {v : List Char} :
    ∃ k, table.cut settings ('^' :: '^' :: v) = .ok k ∧ k.lexeme = ['^', '^'] ∧
      k.rule = punct.name := by
  have hcarets : ['^', '^'] ∈ punct.words := mem_punct.mpr (Or.inl List.mem_cons_self)
  have hcut := cut_extended (T := punct) (by decide) (Or.inl hc) (v := v) hcarets ?_ ?_ ?_
  · obtain ⟨k, hk, hlexeme, hrule | ⟨he, _⟩⟩ := hcut
    · exact ⟨k, hk, hlexeme, hrule⟩
    · cases he
  · intro c hc hhead
    cases hhead
    exact absurd hc (by decide)
  · intro hbracket
    cases hbracket
  · intro S hS w hwv hwS
    obtain ⟨c, u, rfl⟩ := List.exists_cons_of_ne_nil (token_nonempty hS hwS)
    obtain ⟨rfl, _⟩ := List.cons_prefix_cons.mp hwv
    have honly : S ∈ [punct] := begins_only (by decide) hS hwS
    rw [List.mem_singleton.mp honly] at hwS
    rcases mem_punct.mp hwS with hpair | ⟨d, _, heq⟩
    · have hshort : ∀ p ∈ [['^', '^'], ['|', '|'], ['&', '&'], ['!', '='], ['<', '='], ['>', '=']],
          p.length ≤ 2 := by decide
      exact hshort _ hpair
    · rw [heq]
      exact Nat.le_succ 1

end Terminal

open Terminal

/-! Shapes -/

def IsOne (rules : List String) (cs : List Cut) : Prop := ∃ c, cs = [c] ∧ c.rule ∈ rules

def unsignedRules : List String := ["DOUBLE", "DECIMAL", "INTEGER"]

def positiveRules : List String := ["DOUBLE_POSITIVE", "DECIMAL_POSITIVE", "INTEGER_POSITIVE"]

def negativeRules : List String := ["DOUBLE_NEGATIVE", "DECIMAL_NEGATIVE", "INTEGER_NEGATIVE"]

def stringRules : List String :=
  ["STRING_LITERAL_LONG1", "STRING_LITERAL_LONG2", "STRING_LITERAL1", "STRING_LITERAL2"]

def nameRules : List String := ["PNAME_LN", "PNAME_NS"]

def iriRules : List String := "IRIREF" :: nameRules

/-- A text in quotes by itself, with a language tag, or with the IRI of a datatype. -/
def IsLiteral (cs : List Cut) : Prop :=
  (∃ s, cs = [s] ∧ s.rule ∈ stringRules) ∨
    (∃ s t, cs = [s, t] ∧ s.rule ∈ stringRules ∧ t.rule = "LANGTAG") ∨
    ∃ s p i, cs = [s, p, i] ∧ s.rule ∈ stringRules ∧ p.rule = "PUNCT" ∧ p.lexeme = ['^', '^'] ∧
      i.rule ∈ iriRules

/-- The rules for values that are no token rules themselves. -/
inductive Composite where
  | numericUnsigned | numericPositive | numericNegative | numeric | string | prefixedName | iri
  | rdfLiteral | blankNode | dataBlockValue
  deriving DecidableEq, Repr

namespace Composite

def name : Composite → String
  | numericUnsigned => "NumericLiteralUnsigned"
  | numericPositive => "NumericLiteralPositive"
  | numericNegative => "NumericLiteralNegative"
  | numeric => "NumericLiteral"
  | string => "String"
  | prefixedName => "PrefixedName"
  | iri => "iri"
  | rdfLiteral => "RDFLiteral"
  | blankNode => "BlankNode"
  | dataBlockValue => "DataBlockValue"

/-- The tokens that a rule for values describes. -/
def Shape : Composite → List Cut → Prop
  | numericUnsigned => IsOne unsignedRules
  | numericPositive => IsOne positiveRules
  | numericNegative => IsOne negativeRules
  | numeric => IsOne (unsignedRules ++ positiveRules ++ negativeRules)
  | string => IsOne stringRules
  | prefixedName => IsOne nameRules
  | iri => IsOne iriRules
  | rdfLiteral => IsLiteral
  | blankNode => IsOne ["BLANK_NODE_LABEL", "ANON"]
  | dataBlockValue => fun cs =>
    IsOne iriRules cs ∨ IsLiteral cs ∨
      IsOne (unsignedRules ++ positiveRules ++ negativeRules) cs ∨ IsOne ["BooleanLiteral"] cs ∨
      ∃ c, cs = [c] ∧ c.rule = "IDENT" ∧ c.lexeme = ['U', 'N', 'D', 'E', 'F']

def terminal : Composite → Terminal
  | numericUnsigned => .numericUnsigned
  | numericPositive => .numericPositive
  | numericNegative => .numericNegative
  | numeric => .numeric
  | string => .string
  | prefixedName => .prefixedName
  | iri => .iri
  | rdfLiteral => .rdfLiteral
  | blankNode => .blankNode
  | dataBlockValue => .dataBlockValue

theorem terminal_name (C : Composite) : C.terminal.name = C.name := by
  cases C <;> rfl

end Composite

section Shapes

variable {settings : Settings} {text : List Char}

theorem splits_word {c : Cut} {cs : List Cut} (h : table.Splits settings text (c :: cs)) :
    ∃ T ∈ tokens, c.rule = T.name ∧ c.lexeme ∈ T.words := by
  obtain ⟨T, hT, _, hrule, hw⟩ := cut_lexeme h.1
  exact ⟨T, hT, hrule, hw⟩

theorem splits_named {c : Cut} {cs : List Cut} (h : table.Splits settings text (c :: cs))
    {T : Terminal} (hrule : c.rule = T.name) : c.lexeme ∈ T.words := by
  obtain ⟨S, _, hS, hw⟩ := splits_word h
  rwa [name_injective (hrule.symm.trans hS)]

theorem splits_among {c : Cut} {cs : List Cut} (h : table.Splits settings text (c :: cs))
    {parts : List Terminal} (hrule : c.rule ∈ parts.map name) : ∃ T ∈ parts, c.lexeme ∈ T.words := by
  obtain ⟨T, hT, he⟩ := List.mem_map.mp hrule
  exact ⟨T, hT, splits_named h he.symm⟩

variable (hc : settings.comments = true)

include hc in
theorem splits_whole {T : Terminal} (hT : T ∈ tokens) (hne : T ≠ ident) {w : List Char}
    (hw : w ∈ T.words) : ∃ c, table.Splits settings w [c] ∧ c.rule = T.name := by
  obtain ⟨k, hk, hlexeme, hrule⟩ := cut_own hT (Or.inl hc) hw fun h => absurd h hne
  exact ⟨k, Table.splits_single.mpr ⟨hk, hlexeme⟩, hrule⟩

include hc in
/-- A word of one of some token rules is one token of one of these rules. -/
theorem one_shape (parts : List Terminal) (hparts : ∀ T ∈ parts, T ∈ tokens ∧ T ≠ ident) :
    (∃ T ∈ parts, text ∈ T.words) ↔
      ∃ cs, table.Splits settings text cs ∧ IsOne (parts.map name) cs := by
  constructor
  · rintro ⟨T, hT, hw⟩
    obtain ⟨c, hsplit, hrule⟩ := splits_whole hc (hparts T hT).1 (hparts T hT).2 hw
    exact ⟨[c], hsplit, c, rfl, hrule ▸ List.mem_map_of_mem hT⟩
  · rintro ⟨_, hsplit, c, rfl, hrule⟩
    obtain ⟨T, hT, hw⟩ := splits_among hsplit hrule
    exact ⟨T, hT, (Table.splits_single.mp hsplit).2 ▸ hw⟩

include hc in
theorem union_shape {T : Terminal} (parts : List Terminal) (h : (T, parts) ∈ unions) :
    text ∈ T.words ↔ ∃ cs, table.Splits settings text cs ∧ IsOne (parts.map name) cs := by
  have hall : ∀ p ∈ unions, ∀ S ∈ p.2, S ∈ tokens ∧ S ≠ ident := by decide
  rw [mem_union h]
  exact one_shape hc parts (hall _ h)

include hc in
theorem literal_shape :
    text ∈ rdfLiteral.words ↔ ∃ cs, table.Splits settings text cs ∧ IsLiteral cs := by
  rw [mem_rdfLiteral]
  constructor
  · rintro ⟨s, hs, v, rfl, rfl | hv | ⟨i, hi, rfl⟩⟩
    · obtain ⟨k, hk, rfl, hrule⟩ := cut_string hc hs (Or.inl rfl)
      exact ⟨[k], ⟨hk, [], rfl, rfl⟩, Or.inl ⟨k, rfl, hrule⟩⟩
    · obtain ⟨d, r, rfl, _⟩ := mem_langTag hv
      obtain ⟨k, hk, rfl, hrule⟩ := cut_string hc hs (Or.inr ⟨'@', _, rfl, Or.inl rfl⟩)
      obtain ⟨t, ht, htag⟩ := splits_whole hc (T := langTag) (by decide) (by decide) hv
      exact ⟨[k, t], ⟨hk, _, rfl, ht⟩, Or.inr (Or.inl ⟨k, t, rfl, hrule, htag⟩)⟩
    · obtain ⟨k, hk, rfl, hrule⟩ := cut_string hc hs (Or.inr ⟨'^', _, rfl, Or.inr rfl⟩)
      obtain ⟨p, hp, hcarets, hpunct⟩ := cut_carets hc (v := i)
      obtain ⟨_, his, j, rfl, hiri⟩ := (union_shape hc iris (by decide)).mp hi
      refine ⟨[k, p, j], ⟨hk, _, rfl, hp, i, ?_, his⟩,
        Or.inr (Or.inr ⟨k, p, j, rfl, hrule, hpunct, hcarets, hiri⟩)⟩
      rw [hcarets]
      rfl
  · rintro ⟨_, hsplit, ⟨s, rfl, hs⟩ | ⟨s, t, rfl, hs, ht⟩ | ⟨s, p, i, rfl, hs, _, hcarets, hi⟩⟩
    · have hstring := mem_string.mpr (splits_among hsplit hs)
      obtain ⟨_, rest, rfl, rfl⟩ := hsplit
      exact ⟨s.lexeme, hstring, [], rfl, Or.inl rfl⟩
    · have hstring := mem_string.mpr (splits_among hsplit hs)
      obtain ⟨_, rest, rfl, htag⟩ := hsplit
      have hword : t.lexeme ∈ langTag.words := splits_named htag ht
      rw [(Table.splits_single.mp htag).2] at hword
      exact ⟨s.lexeme, hstring, rest, rfl, Or.inr (Or.inl hword)⟩
    · have hstring := mem_string.mpr (splits_among hsplit hs)
      obtain ⟨_, _, rfl, _, rest, rfl, hiri⟩ := hsplit
      have hword : rest ∈ iri.words :=
        (union_shape hc iris (by decide)).mpr ⟨[i], hiri, i, rfl, hi⟩
      rw [hcarets]
      exact ⟨s.lexeme, hstring, _, rfl, Or.inr (Or.inr ⟨rest, hword, rfl⟩)⟩

include hc in
theorem undef_shape : text = ['U', 'N', 'D', 'E', 'F'] ↔
    ∃ cs, table.Splits settings text cs ∧
      ∃ c, cs = [c] ∧ c.rule = "IDENT" ∧ c.lexeme = ['U', 'N', 'D', 'E', 'F'] := by
  constructor
  · rintro rfl
    have hw : ['U', 'N', 'D', 'E', 'F'] ∈ ident.words := letters_ident (by decide) rfl
    have hnot : ['U', 'N', 'D', 'E', 'F'] ∉ boolean.words :=
      fun h => absurd (mem_boolean.mp h) (by decide)
    obtain ⟨k, hk, hlexeme, hrule⟩ := cut_own (by decide) (Or.inl hc) hw fun _ => hnot
    exact ⟨[k], Table.splits_single.mpr ⟨hk, hlexeme⟩, k, rfl, hrule, hlexeme⟩
  · rintro ⟨_, hsplit, c, rfl, _, hlexeme⟩
    exact (Table.splits_single.mp hsplit).2.symm.trans hlexeme

include hc in
theorem composite_shape (C : Composite) :
    text ∈ C.terminal.words ↔ ∃ cs, table.Splits settings text cs ∧ C.Shape cs := by
  cases C with
  | numericUnsigned => exact union_shape hc unsignedNumbers (by decide)
  | numericPositive => exact union_shape hc positiveNumbers (by decide)
  | numericNegative => exact union_shape hc negativeNumbers (by decide)
  | numeric => exact union_shape hc numbers (by decide)
  | string => exact union_shape hc quoted (by decide)
  | prefixedName => exact union_shape hc prefixedNames (by decide)
  | iri => exact union_shape hc iris (by decide)
  | blankNode => exact union_shape hc blankNodes (by decide)
  | rdfLiteral => exact literal_shape hc
  | dataBlockValue =>
    have hboolean : (∃ T ∈ [boolean], text ∈ T.words) ↔ _ := one_shape hc [boolean] (by decide)
    have hone : (∃ T ∈ [boolean], text ∈ T.words) ↔ text ∈ boolean.words := by simp
    rw [hone] at hboolean
    refine mem_dataBlockValue.trans ?_
    rw [union_shape hc (T := iri) iris (by decide), literal_shape hc,
      union_shape hc (T := numeric) numbers (by decide), hboolean, undef_shape hc]
    simp only [← exists_or, ← and_or_left]
    exact Iff.rfl

end Shapes

/-- A rule for values accepts a text as a whole if and only if reading it gives no error and tokens
of the shape of the rule. -/
theorem check_is_shape (stop : Bool) (radius : ℕ) (text : List Char) (C : Composite) :
    table.check? text C.name = some true ↔
      ∃ ts : List Token, table.items (everything stop radius) text = ts.map .token ∧
        C.Shape (ts.map Token.cut) := by
  have hsplits : ∀ cs, table.Splits (everything stop radius) text cs ↔ ∃ ts : List Token,
      table.items (everything stop radius) text = ts.map .token ∧ ts.map Token.cut = cs :=
    fun cs => (Table.items_splits rfl).symm
  have hcomments : (everything stop radius).comments = true := rfl
  rw [← C.terminal_name, check?_iff, composite_shape hcomments]
  simp only [hsplits]
  constructor
  · rintro ⟨_, ⟨ts, hts, rfl⟩, hshape⟩
    exact ⟨ts, hts, hshape⟩
  · rintro ⟨ts, hts, hshape⟩
    exact ⟨_, ⟨ts, hts, rfl⟩, hshape⟩

end SparqlTokens.Sparql
