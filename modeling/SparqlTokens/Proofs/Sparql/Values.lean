import SparqlTokens.Proofs.Lexing.Addressed
import SparqlTokens.Proofs.Number.Reading
import SparqlTokens.Proofs.Sparql.SingleTokens
import SparqlTokens.Token.Basic

/-! Values of tokens. The words of a token rule have the delimiters, the escapes and the digits that
their values are read from, so every token but brackets, punctuation, whitespace and comments has a
value, and one of the variant that its kind stands for. -/
namespace SparqlTokens

namespace Kind

/-- The kinds whose tokens have no value. -/
def isBare : Kind → Bool
  | nil | anon | punctuation _ | whitespace | comment => true
  | _ => false

end Kind

namespace Value

/-- Whether a value is of the variant that tokens of a kind have. A double may be infinite. -/
def suits (kind : Kind) (v : Value) : Bool :=
  match kind with
  | .iriRef => (v matches iri _)
  | .pnameLn | .pnameNs => (v matches prefixedName _ _)
  | .var1 | .var2 => (v matches var _)
  | .langTag => (v matches langTag _)
  | .blankNodeLabel => (v matches blankNode _)
  | .stringLiteral1 | .stringLiteral2 | .stringLiteralLong1 | .stringLiteralLong2 =>
    (v matches string _)
  | .integer | .integerPositive | .integerNegative => (v matches integer _ | bigInteger _)
  | .decimal | .decimalPositive | .decimalNegative => (v matches decimal _)
  | .double | .doublePositive | .doubleNegative => match v with
    | double bits => !Number.isNaN bits
    | _ => false
  | .booleanLiteral => (v matches boolean _)
  | .keyword => (v matches keyword _)
  | .identifier => (v matches identifier _)
  | .nil | .anon | .punctuation _ | .whitespace | .comment => false

theorem suits_not_bare {kind : Kind} {v : Value} (h : v.suits kind = true) :
    kind.isBare = false := by
  cases kind
  all_goals first
    | rfl
    | cases h

/-- A lexeme has the value that its kind stands for, or none if tokens of the kind have none. -/
def Decodes (kind : Kind) (lexeme : String) : Prop :=
  (kind.isBare = true ∧ decode? kind lexeme = none) ∨
    ∃ v, decode? kind lexeme = some v ∧ v.suits kind = true

theorem strip?_between (a body b : List Char) :
    strip? (Text.byteSize a) (Text.byteSize b) (a ++ (body ++ b)) = some body := by
  have hstop : Text.byteSize (a ++ (body ++ b)) - Text.byteSize b =
      Text.byteSize a + Text.byteSize body := by
    simp only [Text.byteSize_append]
    omega
  rw [strip?, if_pos (by simp only [Text.byteSize_append]; omega), hstop]
  exact Text.slice?_between a body b

theorem splitAtColon?_isSome {w : List Char} (h : ':' ∈ w) : (splitAtColon? w).isSome := by
  unfold splitAtColon?
  split
  · rfl
  · next hnil =>
    have hnone := List.dropWhile_eq_nil_iff.mp hnil ':' h
    exact absurd hnone (by decide)

end Value

namespace Sparql

open Form Terminal Value Scan
open scoped Computability

attribute [local irreducible] table Terminal.rule

/-! Escapes -/

/-- A text that can be unescaped before whatever can. -/
def Readable (u : List Char) : Prop := ∀ r, (Escape.unescapeString? r).isSome = true →
  (Escape.unescapeString? (u ++ r)).isSome = true

theorem readable_append {u v : List Char} (hu : Readable u) (hv : Readable v) :
    Readable (u ++ v) := by
  intro r hr
  rw [List.append_assoc]
  exact hu _ (hv _ hr)

theorem readable_char {c : Char} (hc : c ≠ '\\') : Readable [c] := by
  intro r hr
  rw [List.singleton_append, Escape.unescapeString?, Option.isSome_map]
  · exact hr
  · exact fun h _ => hc h
  · exact fun d s h _ => hc h

theorem readable_escape {c : Char} (hc : c ∈ escapeSigns) : Readable ['\\', c] := by
  intro r hr
  obtain ⟨d, hd⟩ := Option.isSome_iff_exists.mp (stringChar?_isSome_iff.mpr hc)
  have htext : ['\\', c] ++ r = '\\' :: c :: r := rfl
  rw [htext, Escape.unescapeString?, hd, Option.isSome_map]
  exact hr

theorem readable_unit {cs u : List Char} (hcs : '\\' ∈ cs) (hu : u ∈ (charUnless cs).language) :
    Readable u := by
  rcases mem_charUnless.mp hu with ⟨c, hc, rfl⟩ | ⟨c, hc, rfl⟩
  · exact readable_char fun h => hc (h ▸ hcs)
  · exact readable_escape hc

theorem readable_part {quote : Char} (hq : quote ≠ '\\') {u : List Char}
    (hu : u ∈ (longPart quote).language) : Readable u := by
  have hquote := readable_char hq
  obtain ⟨v, hv, hform⟩ := mem_longPart.mp hu
  have hunit : Readable v := readable_unit (by simp) hv
  rcases hform with rfl | rfl | rfl
  · exact hunit
  · exact readable_append hquote hunit
  · exact readable_append hquote (readable_append hquote hunit)

theorem unescape_body {l : Language Char} (hl : ∀ u ∈ l, Readable u) {body : List Char}
    (h : body ∈ l∗) : (Escape.unescapeString? body).isSome = true := by
  obtain ⟨pieces, rfl, hp⟩ := Language.mem_kstar.mp h
  clear h
  induction pieces with
  | nil => rfl
  | cons u pieces ih =>
    obtain ⟨hu, hrest⟩ := List.forall_mem_cons.mp hp
    exact hl u hu _ (ih hrest)

theorem stringBody?_isSome {l : Language Char} (hl : ∀ u ∈ l, Readable u) {body : List Char}
    (h : body ∈ l∗) (quotes : List Char) : ∃ s, stringBody? (Text.byteSize quotes)
      (quotes ++ (body ++ quotes)) = some (.string s) := by
  obtain ⟨s, hs⟩ := Option.isSome_iff_exists.mp (unescape_body hl h)
  refine ⟨String.ofList s, ?_⟩
  rw [stringBody?, strip?_between, Option.bind_some, hs, Option.map_some]

/-! Numbers -/

theorem digits_isDigit {w : List Char} (h : ∀ c ∈ w, c ∈ digits) : Number.Digits w := by
  intro c hc
  obtain ⟨hl, hu⟩ := CharSet.mem_range.mp (h c hc)
  exact Bool.and_eq_true_iff.mpr ⟨decide_eq_true hl, decide_eq_true hu⟩

theorem mem_integer {w : List Char} (h : w ∈ Form.integer.language) : w ≠ [] ∧ Number.Digits w := by
  obtain ⟨hne, hw⟩ := Expression.mem_many1_set.mp h
  exact ⟨hne, digits_isDigit hw⟩

theorem mem_exponent {w : List Char} (h : w ∈ (row Form.exponent).language) :
    Number.IsExponent w := by
  obtain ⟨u, ⟨e, he, rfl⟩, v, hv, rfl⟩ := Language.mem_mul.mp h
  obtain ⟨sign, hs, ds, hds, rfl⟩ := Language.mem_mul.mp hv
  obtain ⟨hne, hdigits⟩ := mem_integer hds
  have hletter : e = 'e' ∨ e = 'E' := by simpa using mem_among.mp he
  have hsign : sign ∈ Number.signs := by
    rcases Expression.mem_optional.mp hs with rfl | ⟨c, hc, rfl⟩
    · decide
    · have hmem := mem_among.mp hc
      simp only [List.mem_cons, List.not_mem_nil, or_false] at hmem
      rcases hmem with rfl | rfl
      · decide
      · decide
  exact ⟨e, sign, ds, rfl, hletter, hsign, hne, hdigits⟩

theorem mem_doubles {w : List Char} (h : w ∈ (oneOf doubles).language) : Number.IsScientific w := by
  obtain ⟨form, hform, hw⟩ := Expression.mem_ofBranches.mp h
  simp only [doubles, List.mem_cons, List.not_mem_nil, or_false] at hform
  rcases hform with rfl | rfl | rfl
  · obtain ⟨whole, hwhole, v, hv, rfl⟩ := Language.mem_mul.mp hw
    obtain ⟨p, rfl, t, ht, rfl⟩ := Language.mem_mul.mp hv
    obtain ⟨fraction, hfraction, rest, hrest, rfl⟩ := Language.mem_mul.mp ht
    obtain ⟨hne, hdigits⟩ := mem_integer hwhole
    exact ⟨whole, fraction, rest, hdigits, digits_isDigit (Expression.mem_many_set.mp hfraction),
      Or.inl hne, mem_exponent hrest, Or.inl rfl⟩
  · obtain ⟨p, rfl, t, ht, rfl⟩ := Language.mem_mul.mp hw
    obtain ⟨fraction, hfraction, rest, hrest, rfl⟩ := Language.mem_mul.mp ht
    obtain ⟨hne, hdigits⟩ := mem_integer hfraction
    exact ⟨[], fraction, rest, fun c hc => (by cases hc), hdigits, Or.inr hne, mem_exponent hrest,
      Or.inl rfl⟩
  · obtain ⟨whole, hwhole, rest, hrest, rfl⟩ := Language.mem_mul.mp hw
    obtain ⟨hne, hdigits⟩ := mem_integer hwhole
    exact ⟨whole, [], rest, hdigits, fun c hc => (by cases hc), Or.inl hne, mem_exponent hrest,
      Or.inr ⟨rfl, rfl⟩⟩

/-! Words -/

section Words

variable {lexeme : String} {w : List Char} {c : Char} {e : Expression}

theorem mem_led (h : w ∈ (Expression.cat (char c) e).language) : ∃ v ∈ e.language, w = c :: v := by
  obtain ⟨u, hu, v, hv, rfl⟩ := Language.mem_mul.mp h
  rw [show u = [c] from hu]
  exact ⟨v, hv, rfl⟩

theorem strip_led {v : List Char} (hc : c.utf8Size = 1) : strip? 1 0 (c :: v) = some v := by
  have hstrip := strip?_between [c] v []
  rw [Text.byteSize_cons, hc, List.append_nil] at hstrip
  exact hstrip

theorem colon_mem {T : Terminal} (hT : T ∈ prefixedNames) (h : w ∈ T.words) : ':' ∈ w := by
  simp only [prefixedNames, List.mem_cons, List.not_mem_nil, or_false] at hT
  rcases hT with rfl | rfl
  · obtain ⟨u, _, v, hv, rfl⟩ := Language.mem_mul.mp h
    obtain ⟨x, _, rfl⟩ := mem_led hv
    exact List.mem_append_right u List.mem_cons_self
  · obtain ⟨u, _, v, hv, rfl⟩ := Language.mem_mul.mp h
    rw [show v = [':'] from hv]
    exact List.mem_append_right u List.mem_cons_self

end Words

section Kinds

variable {lexeme : String} {T : Terminal} {kind : Kind}

theorem double_value {sign v : List Char} (hs : sign ∈ Number.signs)
    (hv : v ∈ (oneOf doubles).language) (hl : lexeme.toList = sign ++ v) :
    ∃ x, (Number.double? lexeme.toList).map double = some x ∧ x.suits .double = true := by
  obtain ⟨bits, hbits, hnumber⟩ := Number.double?_number hs (mem_doubles hv)
  refine ⟨double bits, ?_, ?_⟩
  · rw [hl, hbits, Option.map_some]
  · simp only [suits, hnumber, Bool.not_false]

theorem integer_value (lexeme : String) :
    ∃ x, decode? .integer lexeme = some x ∧ x.suits .integer = true := by
  simp only [decode?]
  split
  · exact ⟨_, rfl, rfl⟩
  · exact ⟨_, rfl, rfl⟩

theorem short_value {quote : Char} (hq : quote.utf8Size = 1)
    (h : lexeme.toList ∈ (short quote).language) :
    ∃ s, stringBody? 1 lexeme.toList = some (.string s) := by
  obtain ⟨body, hbody, hl⟩ := mem_short.mp h
  obtain ⟨s, hs⟩ := stringBody?_isSome (fun u hu => readable_unit (by simp) hu) hbody [quote]
  refine ⟨s, ?_⟩
  rw [Text.byteSize_cons, hq] at hs
  rw [hl]
  exact hs

theorem long_value {quote : Char} (hq : quote.utf8Size = 1) (hb : quote ≠ '\\')
    (h : lexeme.toList ∈ (long quote).language) :
    ∃ s, stringBody? 3 lexeme.toList = some (.string s) := by
  obtain ⟨body, hbody, hl⟩ := mem_long.mp h
  obtain ⟨s, hs⟩ := stringBody?_isSome (fun u hu => readable_part hb hu) hbody
    [quote, quote, quote]
  refine ⟨s, ?_⟩
  simp only [Text.byteSize_cons, Text.byteSize_nil, hq] at hs
  rw [hl, List.append_assoc]
  exact hs

theorem pname_value (hT : T ∈ prefixedNames) (h : lexeme.toList ∈ T.words) :
    ∃ x, decode? .pnameLn lexeme = some x ∧ x.suits .pnameLn = true := by
  obtain ⟨p, hp⟩ := Option.isSome_iff_exists.mp (splitAtColon?_isSome (colon_mem hT h))
  refine ⟨prefixedName (String.ofList p.1) (String.ofList (Escape.unescapeLocal p.2)), ?_, rfl⟩
  simp only [decode?, hp, Option.map_some]

theorem var_value {c : Char} (hc : c.utf8Size = 1) {e : Expression}
    (h : lexeme.toList ∈ (Expression.cat (char c) e).language) :
    ∃ s, strip? 1 0 lexeme.toList = some s := by
  obtain ⟨v, _, hl⟩ := mem_led h
  rw [hl]
  exact ⟨v, strip_led hc⟩

theorem ident_value (h : Kind.ofRule? ident.name lexeme = some kind) :
    ∃ x, decode? kind lexeme = some x ∧ x.suits kind = true := by
  have hkind := Option.some.inj h
  subst hkind
  split
  · next hkeyword =>
    obtain ⟨word, hword⟩ := Option.isSome_iff_exists.mp hkeyword
    exact ⟨keyword word, by simp only [decode?, hword, Option.map_some], rfl⟩
  · exact ⟨_, rfl, rfl⟩

/-- The lexemes of each token rule have the values of their kinds. -/
theorem word_decodes (hT : T ∈ tokens) (hw : lexeme.toList ∈ T.words)
    (hk : Kind.ofRule? T.name lexeme = some kind) : Decodes kind lexeme := by
  cases T with
  | double =>
    cases hk
    have hnone : [] ∈ Number.signs := by decide
    exact Or.inr (double_value hnone hw rfl)
  | doublePositive =>
    cases hk
    obtain ⟨v, hv, hl⟩ := mem_led hw
    have hplus : ['+'] ∈ Number.signs := by decide
    exact Or.inr (double_value hplus hv hl)
  | doubleNegative =>
    cases hk
    obtain ⟨v, hv, hl⟩ := mem_led hw
    have hminus : ['-'] ∈ Number.signs := by decide
    exact Or.inr (double_value hminus hv hl)
  | integer | integerPositive | integerNegative =>
    cases hk
    exact Or.inr (integer_value lexeme)
  | string1 | string2 =>
    cases hk
    obtain ⟨s, hs⟩ := short_value (by decide) hw
    exact Or.inr ⟨_, hs, rfl⟩
  | stringLong1 | stringLong2 =>
    cases hk
    obtain ⟨s, hs⟩ := long_value (by decide) (by decide) hw
    exact Or.inr ⟨_, hs, rfl⟩
  | iriref =>
    cases hk
    obtain ⟨body, _, hl⟩ := mem_between.mp hw
    have hstrip : strip? 1 1 lexeme.toList = some body := by
      rw [hl, List.append_assoc]
      exact strip?_between ['<'] body ['>']
    exact Or.inr ⟨iri (String.ofList body), by simp only [decode?, hstrip, Option.map_some], rfl⟩
  | pnameLn | pnameNs =>
    cases hk
    exact Or.inr (pname_value (by decide) hw)
  | blankNodeLabel =>
    cases hk
    obtain ⟨u, hu, v, _, hl⟩ := Language.mem_mul.mp hw
    rw [show u = ['_', ':'] from hu] at hl
    exact Or.inr ⟨blankNode (String.ofList v), by simp only [decode?, ← hl]; rfl, rfl⟩
  | var1 | var2 =>
    cases hk
    obtain ⟨s, hs⟩ := var_value (by decide) hw
    exact Or.inr ⟨var (String.ofList s), by simp only [decode?, hs, Option.map_some], rfl⟩
  | langTag =>
    cases hk
    obtain ⟨s, hs⟩ := var_value (by decide) hw
    exact Or.inr ⟨langTag (String.ofList s), by simp only [decode?, hs, Option.map_some], rfl⟩
  | ident => exact Or.inr (ident_value hk)
  | decimal | decimalPositive | decimalNegative | boolean =>
    cases hk
    exact Or.inr ⟨_, rfl, rfl⟩
  | nil | anon | whitespace | comment =>
    cases hk
    exact Or.inl ⟨rfl, rfl⟩
  | punct =>
    obtain ⟨p, _, rfl⟩ := Option.map_eq_some_iff.mp hk
    exact Or.inl ⟨rfl, rfl⟩
  | _ => exact absurd hT (by decide)

end Kinds

/-- A token has no value if and only if it is a pair of brackets, punctuation, whitespace or a
comment; every other token has a value of the variant of its kind, whatever its lexeme. -/
theorem tokens_have_values {settings : Settings} {text : List Char} {t : Token}
    (h : Emits (ofText table settings text) (.token t)) :
    (t.value? = none ↔ t.kind.isBare = true) ∧ ∀ v, t.value? = some v → v.suits t.kind = true := by
  obtain ⟨ahead, hcut⟩ := emitted_cut h
  obtain ⟨T, hT, _, hrule, hw⟩ := cut_lexeme hcut
  have hkind := Table.cut_kind hcut
  have hlexeme : String.ofList t.cut.lexeme = t.lexeme := String.ofList_toList
  rw [hrule, hlexeme] at hkind
  rw [Token.value?]
  rcases word_decodes hT hw hkind with ⟨hbare, hnone⟩ | ⟨v, hv, hsuits⟩
  · refine ⟨iff_of_true hnone hbare, ?_⟩
    intro v hv
    have hsame : decode? t.kind t.lexeme = none := hnone
    rw [hsame] at hv
    cases hv
  · have hsame : decode? t.kind t.lexeme = some v := hv
    have hvalued : t.kind.isBare = false := suits_not_bare hsuits
    rw [hsame, hvalued]
    refine ⟨iff_of_false (by simp) (by simp), ?_⟩
    intro u hu
    cases hu
    exact hsuits

/-- A double without digits behind its point. -/
theorem double_without_fraction :
    let text := ['1', '.', 'e', '5']
    ∃ t, Emits (ofText table {} text) (.token t) ∧ t.kind = .double ∧
      ∃ v, t.value? = some v ∧ v.suits .double = true := by
  intro text
  have digit : ∀ c ∈ ['1', '5'], [c] ∈ Form.integer.language := by
    intro c hc
    refine mem_many1 ⟨c, CharSet.mem_range.mpr ?_, rfl⟩
    simp only [List.mem_cons, List.not_mem_nil, or_false] at hc
    rcases hc with rfl | rfl
    all_goals decide
  have hletter : ['e'] ∈ (Expression.set (among ['e', 'E'])).language :=
    ⟨'e', mem_among.mpr (by decide), rfl⟩
  have hunsigned : [] ∈ (optional (.set (among ['+', '-']))).language :=
    Expression.mem_optional.mpr (Or.inl rfl)
  have hexponent : ['e', '5'] ∈ (row Form.exponent).language :=
    Language.append_mem_mul hletter (Language.append_mem_mul hunsigned (digit '5' (by decide)))
  have hrow : text ∈ (row (Form.integer :: char '.' :: many (.set digits) ::
      Form.exponent)).language :=
    Language.append_mem_mul (digit '1' (by decide)) (Language.append_mem_mul (a := ['.']) rfl
      (Language.append_mem_mul (nil_mem_many _) hexponent))
  have hword : text ∈ double.words :=
    Expression.mem_ofBranches.mpr ⟨_, List.mem_cons_self, hrow⟩
  have hadmitted : double.Admitted {} := Or.inl rfl
  obtain ⟨t, ht, _, _, hkind⟩ := read_word (by decide) hadmitted hword nofun rfl rfl
  have hemits : Emits (ofText table {} text) (.token t) :=
    items_emitted (ht ▸ List.mem_singleton_self _)
  obtain ⟨hnone, hsuits⟩ := tokens_have_values hemits
  rw [hkind] at hnone hsuits
  refine ⟨t, hemits, hkind, ?_⟩
  cases hv : t.value? with
  | none => cases hnone.mp hv
  | some v => exact ⟨v, rfl, hsuits v hv⟩

end Sparql

end SparqlTokens
