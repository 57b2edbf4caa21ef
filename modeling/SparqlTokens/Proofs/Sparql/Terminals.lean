import SparqlTokens.Grammar.Sparql
import SparqlTokens.Proofs.Pattern.Languages
import SparqlTokens.Token.Escape

/-! The rules of the grammar, each with the expression that its expanded text describes. -/
namespace SparqlTokens.Sparql

namespace Form

open Expression

def row : List Expression → Expression := ofFactors

def oneOf : List Expression → Expression := ofBranches

def char (c : Char) : Expression := text [c]

def many (e : Expression) : Expression := repeated 0 none true e

def many1 (e : Expression) : Expression := repeated 1 none true e

def optional (e : Expression) : Expression := repeated 0 (some 1) true e

theorem nil_mem_many (e : Expression) : [] ∈ (many e).language := by
  rw [many, Expression.language_many]
  exact Language.nil_mem_kstar _

theorem mem_many1 {e : Expression} {w : List Char} (h : w ∈ e.language) :
    w ∈ (many1 e).language := by
  rw [many1, Expression.language_many1, ← List.append_nil w]
  exact Language.append_mem_mul h (Language.nil_mem_kstar _)

/-- The set of the characters in some ranges. -/
def within (ranges : List (Char × Char)) : CharSet :=
  ranges.foldl (fun s r => s.union (.range r.1 r.2)) .none

def among (cs : List Char) : CharSet := within (cs.map fun c => (c, c))

theorem within_spec {ranges : List (Char × Char)} (h : ∀ r ∈ ranges, r.1 ≤ r.2) :
    (within ranges).Ascending ∧ ∀ c, c ∈ within ranges ↔ ∃ r ∈ ranges, r.1 ≤ c ∧ c ≤ r.2 := by
  induction ranges using List.reverseRecOn with
  | nil => exact ⟨List.Pairwise.nil, fun c => by simp [within, CharSet.mem_iff, CharSet.none,
      CharSet.insideAt]⟩
  | append_singleton ranges r ih =>
    obtain ⟨ha, hm⟩ := ih fun s hs => h s (List.mem_append_left _ hs)
    have hr : (CharSet.range r.1 r.2).Ascending :=
      CharSet.range_ascending (h r (List.mem_append_right _ (List.mem_singleton_self r)))
    have hsplit : within (ranges ++ [r]) = (within ranges).union (.range r.1 r.2) := by
      rw [within, List.foldl_append]
      rfl
    rw [hsplit]
    refine ⟨CharSet.union_ascending ha hr, fun c => ?_⟩
    rw [CharSet.mem_union ha hr, hm, CharSet.mem_range]
    simp [or_and_right, exists_or]

theorem among_spec (cs : List Char) : (among cs).Ascending ∧ ∀ c, c ∈ among cs ↔ c ∈ cs := by
  have h : ∀ r ∈ cs.map fun c => (c, c), r.1 ≤ r.2 := by
    intro r hr
    obtain ⟨c, _, rfl⟩ := List.mem_map.mp hr
    exact Char.le_refl c
  obtain ⟨ha, hm⟩ := within_spec h
  refine ⟨ha, fun c => ?_⟩
  rw [among, hm]
  constructor
  · rintro ⟨r, hr, hl, hu⟩
    obtain ⟨d, hd, rfl⟩ := List.mem_map.mp hr
    rwa [Char.le_antisymm hu hl]
  · intro hc
    exact ⟨(c, c), List.mem_map_of_mem hc, Char.le_refl c, Char.le_refl c⟩

theorem mem_among {cs : List Char} {c : Char} : c ∈ among cs ↔ c ∈ cs := (among_spec cs).2 c

theorem mem_among_compl {cs : List Char} {c : Char} : c ∈ (among cs).compl ↔ c ∉ cs := by
  rw [CharSet.mem_compl (among_spec cs).1, mem_among]

def nameBase : CharSet :=
  within [('A', 'Z'), ('a', 'z'), ('\u00c0', '\u00d6'), ('\u00d8', '\u00f6'), ('\u00f8', '\u02ff'),
    ('\u0370', '\u037d'), ('\u037f', '\u1fff'), ('\u200c', '\u200d'), ('\u2070', '\u218f'),
    ('\u2c00', '\u2fef'), ('\u3001', '\ud7ff'), ('\uf900', '\ufdcf'), ('\ufdf0', '\ufffd')]

def digits : CharSet := .range '0' '9'

def hexDigits : CharSet := within [('0', '9'), ('A', 'F'), ('a', 'f')]

def letters : CharSet := within [('A', 'Z'), ('a', 'z')]

def lettersAndDigits : CharSet := within [('0', '9'), ('A', 'Z'), ('a', 'z')]

def blanks : CharSet := among [' ', '\t', '\r', '\n']

def localSigns : CharSet := among Escape.localSigns

/-- The letters and signs that follow a backslash in a string. -/
def escapeSigns : List Char := ['t', 'b', 'n', 'r', 'f', '\\', '"', '\'']

def combining : CharSet := .range '\u0300' '\u036f'

def ties : CharSet := .range '\u203f' '\u2040'

def nameStarts : List Expression := [set nameBase, char '_']

def nameRest : List Expression :=
  [char '-', set digits, char '\u00b7', set combining, set ties]

def nameChars : List Expression := nameStarts ++ nameRest

/-- What may follow the first character of a name with dots: dots inside, but none at the end. -/
def dotted (inner last : List Expression) : Expression :=
  optional (row [many (oneOf inner), oneOf last])

def nameTail : Expression := dotted (nameChars ++ [char '.']) nameChars

def percent : Expression := row [char '%', set hexDigits, set hexDigits]

def localEscape : Expression := row [char '\\', set localSigns]

def localStart : Expression :=
  oneOf (nameStarts ++ [char ':', set digits, percent, localEscape])

def localTail : Expression :=
  dotted (nameChars ++ [char '.', char ':', percent, localEscape])
    (nameChars ++ [char ':', percent, localEscape])

def namePrefix : Expression := optional (row [set nameBase, nameTail])

def varName : Expression :=
  row [oneOf (nameStarts ++ [set digits]),
    many (oneOf (nameStarts ++ [set digits, char '\u00b7', set combining, set ties]))]

def integer : Expression := many1 (set digits)

def decimal : Expression := row [many (set digits), char '.', integer]

def exponent : List Expression :=
  [set (among ['e', 'E']), optional (set (among ['+', '-'])), integer]

def doubles : List Expression :=
  [row (integer :: char '.' :: many (set digits) :: exponent),
    row (char '.' :: integer :: exponent), row (integer :: exponent)]

def unsigned : List Expression := doubles ++ [decimal, integer]

def escape : Expression := row [char '\\', set (among escapeSigns)]

/-- A character outside a list, or an escape. -/
def charUnless (cs : List Char) : Expression := oneOf [set (among cs).compl, escape]

/-- A text in single quotes, within its line. -/
def short (quote : Char) : Expression :=
  row [char quote, many (charUnless [quote, '\\', '\n', '\r']), char quote]

/-- A part of a text in triple quotes: up to two quotes may stand before anything else. -/
def longPart (quote : Char) : Expression :=
  row [optional (oneOf [char quote, text [quote, quote]]), charUnless [quote, '\\']]

def long (quote : Char) : Expression :=
  row [text [quote, quote, quote], many (longPart quote), text [quote, quote, quote]]

def iriref : Expression :=
  row [char '<',
    many (set (within [('\x00', ' '), ('<', '<'), ('>', '>'), ('"', '"'), ('\x7b', '\x7b'),
      ('\x7d', '\x7d'), ('|', '|'), ('^', '^'), ('`', '`'), ('\\', '\\')]).compl),
    char '>']

def prefixedName : Expression :=
  row [namePrefix, char ':', oneOf [row [localStart, localTail], .empty]]

def langTag : Expression :=
  row [char '@', many1 (set letters), many (row [char '-', many1 (set lettersAndDigits)])]

def strings : List Expression := [long '\'', long '"', short '\'', short '"']

def blankNodeLabel : Expression :=
  row [text ['_', ':'], oneOf (nameStarts ++ [set digits]), nameTail]

def inBrackets (opening closing : Char) : Expression :=
  row [char opening, many (set blanks), char closing]

def literal : Expression :=
  row [oneOf strings,
    optional (oneOf [langTag, row [text ['^', '^'], oneOf [iriref, prefixedName]]])]

def numeric : List Expression :=
  unsigned ++ [row [char '+', oneOf unsigned], row [char '-', oneOf unsigned]]

def booleans : List Expression := [text ['t', 'r', 'u', 'e'], text ['f', 'a', 'l', 's', 'e']]

def pairSigns : List Expression :=
  [text ['^', '^'], text ['|', '|'], text ['&', '&'], text ['!', '='], text ['<', '='],
    text ['>', '=']]

def signs : CharSet :=
  among ['\x7b', '\x7d', '(', ')', '[', ']', '.', ',', ';', '=', '<', '>', '+', '-', '*', '/', '!',
    '?', '|', '^']

end Form

inductive Terminal where
  | iriref | pnameNs | pnameLn | blankNodeLabel | var1 | var2 | langTag
  | integer | decimal | double | integerPositive | decimalPositive | doublePositive
  | integerNegative | decimalNegative | doubleNegative | exponent
  | string1 | string2 | stringLong1 | stringLong2 | echar | nil | ws | anon
  | pnCharsBase | pnCharsU | varName | pnChars | pnPrefix | pnLocal | plx | percent | hex
  | pnLocalEsc | numeric | numericUnsigned | numericPositive | numericNegative | boolean | string
  | prefixedName | iri | rdfLiteral | blankNode | dataBlockValue
  | whitespace | comment | ident | punct
  deriving DecidableEq, Repr

namespace Terminal

def all : List Terminal := [
  iriref, pnameNs, pnameLn, blankNodeLabel, var1, var2, langTag,
  integer, decimal, double, integerPositive, decimalPositive, doublePositive,
  integerNegative, decimalNegative, doubleNegative, exponent,
  string1, string2, stringLong1, stringLong2, echar, nil, ws, anon,
  pnCharsBase, pnCharsU, varName, pnChars, pnPrefix, pnLocal, plx, percent, hex, pnLocalEsc,
  numeric, numericUnsigned, numericPositive, numericNegative, boolean, string,
  prefixedName, iri, rdfLiteral, blankNode, dataBlockValue,
  whitespace, comment, ident, punct]

/-- The rules that make tokens, best rank first. -/
def tokens : List Terminal := [
  double, doublePositive, doubleNegative, decimal, decimalPositive, decimalNegative,
  integer, integerPositive, integerNegative, stringLong1, stringLong2, string1, string2,
  iriref, pnameLn, pnameNs, blankNodeLabel, var1, var2, langTag, nil, anon, boolean, ident,
  whitespace, comment, punct]

def name : Terminal → String
  | iriref => "IRIREF"
  | pnameNs => "PNAME_NS"
  | pnameLn => "PNAME_LN"
  | blankNodeLabel => "BLANK_NODE_LABEL"
  | var1 => "VAR1"
  | var2 => "VAR2"
  | langTag => "LANGTAG"
  | integer => "INTEGER"
  | decimal => "DECIMAL"
  | double => "DOUBLE"
  | integerPositive => "INTEGER_POSITIVE"
  | decimalPositive => "DECIMAL_POSITIVE"
  | doublePositive => "DOUBLE_POSITIVE"
  | integerNegative => "INTEGER_NEGATIVE"
  | decimalNegative => "DECIMAL_NEGATIVE"
  | doubleNegative => "DOUBLE_NEGATIVE"
  | exponent => "EXPONENT"
  | string1 => "STRING_LITERAL1"
  | string2 => "STRING_LITERAL2"
  | stringLong1 => "STRING_LITERAL_LONG1"
  | stringLong2 => "STRING_LITERAL_LONG2"
  | echar => "ECHAR"
  | nil => "NIL"
  | ws => "WS"
  | anon => "ANON"
  | pnCharsBase => "PN_CHARS_BASE"
  | pnCharsU => "PN_CHARS_U"
  | varName => "VARNAME"
  | pnChars => "PN_CHARS"
  | pnPrefix => "PN_PREFIX"
  | pnLocal => "PN_LOCAL"
  | plx => "PLX"
  | percent => "PERCENT"
  | hex => "HEX"
  | pnLocalEsc => "PN_LOCAL_ESC"
  | numeric => "NumericLiteral"
  | numericUnsigned => "NumericLiteralUnsigned"
  | numericPositive => "NumericLiteralPositive"
  | numericNegative => "NumericLiteralNegative"
  | boolean => "BooleanLiteral"
  | string => "String"
  | prefixedName => "PrefixedName"
  | iri => "iri"
  | rdfLiteral => "RDFLiteral"
  | blankNode => "BlankNode"
  | dataBlockValue => "DataBlockValue"
  | whitespace => "WHITESPACE"
  | comment => "COMMENT"
  | ident => "IDENT"
  | punct => "PUNCT"

open Form
open Expression (set text)

/-- The expression that the expanded text of a rule describes. -/
def form : Terminal → Expression
  | iriref => Form.iriref
  | pnameNs => row [namePrefix, char ':']
  | pnameLn => row [namePrefix, char ':', localStart, localTail]
  | blankNodeLabel => Form.blankNodeLabel
  | var1 => .cat (char '?') Form.varName
  | var2 => .cat (char '$') Form.varName
  | langTag => Form.langTag
  | integer => Form.integer
  | decimal => Form.decimal
  | double => oneOf doubles
  | integerPositive => .cat (char '+') Form.integer
  | decimalPositive => .cat (char '+') Form.decimal
  | doublePositive => .cat (char '+') (oneOf doubles)
  | integerNegative => .cat (char '-') Form.integer
  | decimalNegative => .cat (char '-') Form.decimal
  | doubleNegative => .cat (char '-') (oneOf doubles)
  | exponent => row Form.exponent
  | string1 => short '\''
  | string2 => short '"'
  | stringLong1 => long '\''
  | stringLong2 => long '"'
  | echar => escape
  | nil => inBrackets '(' ')'
  | ws => set blanks
  | anon => inBrackets '[' ']'
  | pnCharsBase => set nameBase
  | pnCharsU => oneOf nameStarts
  | varName => Form.varName
  | pnChars => oneOf nameChars
  | pnPrefix => row [set nameBase, nameTail]
  | pnLocal => row [localStart, localTail]
  | plx => oneOf [Form.percent, localEscape]
  | percent => Form.percent
  | hex => set hexDigits
  | pnLocalEsc => localEscape
  | numeric => oneOf Form.numeric
  | numericUnsigned => oneOf unsigned
  | numericPositive => row [char '+', oneOf unsigned]
  | numericNegative => row [char '-', oneOf unsigned]
  | boolean => oneOf booleans
  | string => oneOf strings
  | prefixedName => Form.prefixedName
  | iri => oneOf [Form.iriref, Form.prefixedName]
  | rdfLiteral => literal
  | blankNode => oneOf [Form.blankNodeLabel, inBrackets '[' ']']
  | dataBlockValue =>
    oneOf ([Form.iriref, Form.prefixedName, literal] ++ Form.numeric ++ booleans ++
      [text ['U', 'N', 'D', 'E', 'F']])
  | whitespace => many1 (set blanks)
  | comment => row [char '#', many (set (among ['\r', '\n']).compl)]
  | ident => row [oneOf nameStarts, many (oneOf nameChars)]
  | punct => oneOf (pairSigns ++ [set signs])

end Terminal

end SparqlTokens.Sparql
