import SparqlTokens.Proofs.Sparql.Values

/-! Writing a string as a literal, and reading it back. A body escapes backslashes and its quote,
and between single quotes also the ends of lines. Whatever the string, the literal is one token, and
its value is the string. -/
namespace SparqlTokens

namespace Escape

/-- A character as the body of a literal writes it. Between single quotes a body has to stay within
one line. -/
def writeChar (quote : Char) (oneLine : Bool) (c : Char) : List Char :=
  if c = '\\' ∨ c = quote then ['\\', c]
  else if oneLine ∧ c = '\n' then ['\\', 'n']
  else if oneLine ∧ c = '\r' then ['\\', 'r']
  else [c]

def writeBody (quote : Char) (oneLine : Bool) (s : List Char) : List Char :=
  s.flatMap (writeChar quote oneLine)

/-- A text that is read as the character `c`, whatever follows it. -/
def Writes (u : List Char) (c : Char) : Prop :=
  ∀ r, unescapeString? (u ++ r) = (unescapeString? r).map (c :: ·)

theorem writes_char {c : Char} (hc : c ≠ '\\') : Writes [c] c := by
  intro r
  rw [List.singleton_append, unescapeString?]
  · exact fun h _ => hc h
  · exact fun d s h _ => hc h

theorem writes_escape {sign c : Char} (hc : stringChar? sign = some c) : Writes ['\\', sign] c := by
  intro r
  have htext : ['\\', sign] ++ r = '\\' :: sign :: r := rfl
  rw [htext, unescapeString?, hc]

section Written

variable {quote : Char} (hq : quote = '"' ∨ quote = '\'') (oneLine : Bool)

include hq in
theorem stringChar?_sign {c : Char} (hc : c = '\\' ∨ c = quote) : stringChar? c = some c := by
  rcases hc with rfl | rfl
  · rfl
  · rcases hq with rfl | rfl
    · rfl
    · rfl

include hq in
theorem writeChar_writes (c : Char) : Writes (writeChar quote oneLine c) c := by
  by_cases hsign : c = '\\' ∨ c = quote
  · rw [writeChar, if_pos hsign]
    exact writes_escape (stringChar?_sign hq hsign)
  by_cases hfeed : oneLine ∧ c = '\n'
  · rw [writeChar, if_neg hsign, if_pos hfeed, hfeed.2]
    exact writes_escape rfl
  by_cases hreturn : oneLine ∧ c = '\r'
  · rw [writeChar, if_neg hsign, if_neg hfeed, if_pos hreturn, hreturn.2]
    exact writes_escape rfl
  · rw [writeChar, if_neg hsign, if_neg hfeed, if_neg hreturn]
    exact writes_char (not_or.mp hsign).1

include hq in
theorem unescape_writeBody (s : List Char) :
    unescapeString? (writeBody quote oneLine s) = some s := by
  induction s with
  | nil => rfl
  | cons c s ih =>
    rw [writeBody, List.flatMap_cons, writeChar_writes hq oneLine c]
    exact congrArg (Option.map (c :: ·)) ih

end Written

end Escape

namespace Sparql

open Terminal Value Scan Escape
open scoped Computability

attribute [local irreducible] table Terminal.rule

section Bodies

variable {quote : Char} (hq : quote = '"' ∨ quote = '\'')

/-- The characters that a body does not hold as they are. -/
def neverPlain (quote : Char) (oneLine : Bool) : List Char :=
  quote :: '\\' :: if oneLine then ['\n', '\r'] else []

include hq in
theorem writeChar_unit (oneLine : Bool) (c : Char) :
    writeChar quote oneLine c ∈ (Form.charUnless (neverPlain quote oneLine)).language := by
  by_cases hsign : c = '\\' ∨ c = quote
  · rw [writeChar, if_pos hsign]
    refine mem_charUnless.mpr (Or.inr ⟨c, stringChar?_isSome_iff.mp ?_, rfl⟩)
    rw [stringChar?_sign hq hsign, Option.isSome_some]
  by_cases hfeed : oneLine ∧ c = '\n'
  · rw [writeChar, if_neg hsign, if_pos hfeed]
    exact mem_charUnless.mpr (Or.inr ⟨'n', by decide, rfl⟩)
  by_cases hreturn : oneLine ∧ c = '\r'
  · rw [writeChar, if_neg hsign, if_neg hfeed, if_pos hreturn]
    exact mem_charUnless.mpr (Or.inr ⟨'r', by decide, rfl⟩)
  · rw [writeChar, if_neg hsign, if_neg hfeed, if_neg hreturn]
    refine mem_charUnless.mpr (Or.inl ⟨c, ?_, rfl⟩)
    cases oneLine with
    | false => simpa [neverPlain, or_comm] using hsign
    | true =>
      simp only [true_and] at hfeed hreturn
      simp only [neverPlain, if_true, List.mem_cons, List.not_mem_nil, or_false, not_or] at hsign ⊢
      exact ⟨hsign.2, hsign.1, hfeed, hreturn⟩

theorem flatMap_kstar {l : Language Char} {write : Char → List Char} (h : ∀ c, write c ∈ l)
    (s : List Char) : s.flatMap write ∈ l∗ := by
  induction s with
  | nil => exact Language.nil_mem_kstar l
  | cons c s ih => exact kstar_append (h c) ih

include hq in
theorem writeBody_short (s : List Char) :
    [quote] ++ writeBody quote true s ++ [quote] ∈ (Form.short quote).language :=
  mem_short.mpr ⟨_, flatMap_kstar (writeChar_unit hq true) s, rfl⟩

include hq in
theorem writeBody_long (s : List Char) :
    [quote, quote, quote] ++ writeBody quote false s ++ [quote, quote, quote] ∈
      (Form.long quote).language := by
  have hpart : ∀ c, writeChar quote false c ∈ (Form.longPart quote).language :=
    fun c => mem_longPart.mpr ⟨_, writeChar_unit hq false c, Or.inl rfl⟩
  exact mem_long.mpr ⟨_, flatMap_kstar hpart s, rfl⟩

end Bodies

/-- Reading a text gives one token of a rule and nothing else, whose lexeme is the text and whose
value is a string. -/
def ReadAs (settings : Settings) (text : List Char) (rule : String) (s : String) : Prop :=
  ∃ t, table.items settings text = [.token t] ∧ t.rule = rule ∧ t.lexeme.toList = text ∧
    t.value? = some (.string s)

section Reading

variable {T : Terminal} {settings : Settings} {kind : Kind}

/-- A word in quotes is read as the string of which its body is read. -/
theorem read_quoted (hT : T ∈ tokens) (hcomment : T ≠ comment) (hident : T ≠ ident)
    (hkind : ∀ lexeme, Kind.ofRule? T.name lexeme = some kind) (hshown : kind.isTrivia = false)
    {quotes text : List Char} (hvalue : ∀ lexeme,
      decode? kind lexeme = stringBody? (Text.byteSize quotes) lexeme.toList) {s : String}
    (hw : quotes ++ text ++ quotes ∈ T.words) (hs : unescapeString? text = some s.toList) :
    ReadAs settings (quotes ++ text ++ quotes) T.name s := by
  obtain ⟨t, ht, hrule, hlexeme, hk⟩ := read_word hT (Or.inr hcomment) hw
    (fun h => absurd h hident) (hkind _) hshown
  refine ⟨t, ht, hrule, hlexeme, ?_⟩
  rw [Token.value?, hk, hvalue, hlexeme, List.append_assoc, stringBody?, strip?_between,
    Option.bind_some, hs, Option.map_some, String.ofList_toList]

end Reading

/-- Every string comes back from all four literals that write it. -/
theorem strings_round_trip (settings : Settings) (s : String) :
    ReadAs settings (['\''] ++ writeBody '\'' true s.toList ++ ['\'']) "STRING_LITERAL1" s ∧
    ReadAs settings (['"'] ++ writeBody '"' true s.toList ++ ['"']) "STRING_LITERAL2" s ∧
    ReadAs settings (['\'', '\'', '\''] ++ writeBody '\'' false s.toList ++ ['\'', '\'', '\''])
      "STRING_LITERAL_LONG1" s ∧
    ReadAs settings (['"', '"', '"'] ++ writeBody '"' false s.toList ++ ['"', '"', '"'])
      "STRING_LITERAL_LONG2" s := by
  have hdouble : '"' = '"' ∨ '"' = '\'' := Or.inl rfl
  have hsingle : '\'' = '"' ∨ '\'' = '\'' := Or.inr rfl
  refine ⟨?_, ?_, ?_, ?_⟩
  · exact read_quoted (T := string1) (by decide) (by decide) (by decide) (fun _ => rfl) rfl
      (fun _ => rfl) (writeBody_short hsingle s.toList) (unescape_writeBody hsingle true s.toList)
  · exact read_quoted (T := string2) (by decide) (by decide) (by decide) (fun _ => rfl) rfl
      (fun _ => rfl) (writeBody_short hdouble s.toList) (unescape_writeBody hdouble true s.toList)
  · exact read_quoted (T := stringLong1) (by decide) (by decide) (by decide) (fun _ => rfl) rfl
      (fun _ => rfl) (writeBody_long hsingle s.toList) (unescape_writeBody hsingle false s.toList)
  · exact read_quoted (T := stringLong2) (by decide) (by decide) (by decide) (fun _ => rfl) rfl
      (fun _ => rfl) (writeBody_long hdouble s.toList) (unescape_writeBody hdouble false s.toList)

end Sparql

end SparqlTokens
