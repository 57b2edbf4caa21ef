import SparqlTokens.Token.Keyword
import SparqlTokens.Token.Punct
/-!
The kinds of tokens. Nearly every token rule has a kind of its own; a bare word is a keyword or an
identifier, and punctuation is told apart by its text.
-/

namespace SparqlTokens

inductive Kind where
  | iriRef
  | pnameLn
  | pnameNs
  | blankNodeLabel
  | var1
  | var2
  | langTag
  | integer
  | decimal
  | double
  | integerPositive
  | decimalPositive
  | doublePositive
  | integerNegative
  | decimalNegative
  | doubleNegative
  | stringLiteral1
  | stringLiteral2
  | stringLiteralLong1
  | stringLiteralLong2
  | nil
  | anon
  | booleanLiteral
  | keyword
  | identifier
  | punctuation (p : Punct)
  | whitespace
  | comment
  deriving DecidableEq, Repr

namespace Kind

/-- The kind of a lexeme that a token rule has cut. A rule outside the list makes no tokens, nor
does punctuation without a name. -/
def ofRule? (rule lexeme : String) : Option Kind :=
  match rule with
  | "IRIREF" => some iriRef
  | "PNAME_LN" => some pnameLn
  | "PNAME_NS" => some pnameNs
  | "BLANK_NODE_LABEL" => some blankNodeLabel
  | "VAR1" => some var1
  | "VAR2" => some var2
  | "LANGTAG" => some langTag
  | "INTEGER" => some integer
  | "DECIMAL" => some decimal
  | "DOUBLE" => some double
  | "INTEGER_POSITIVE" => some integerPositive
  | "DECIMAL_POSITIVE" => some decimalPositive
  | "DOUBLE_POSITIVE" => some doublePositive
  | "INTEGER_NEGATIVE" => some integerNegative
  | "DECIMAL_NEGATIVE" => some decimalNegative
  | "DOUBLE_NEGATIVE" => some doubleNegative
  | "STRING_LITERAL1" => some stringLiteral1
  | "STRING_LITERAL2" => some stringLiteral2
  | "STRING_LITERAL_LONG1" => some stringLiteralLong1
  | "STRING_LITERAL_LONG2" => some stringLiteralLong2
  | "NIL" => some nil
  | "ANON" => some anon
  | "BooleanLiteral" => some booleanLiteral
  | "IDENT" => some (if Keyword.isKeyword lexeme then keyword else identifier)
  | "PUNCT" => (Punct.ofText? lexeme).map punctuation
  | "WHITESPACE" => some whitespace
  | "COMMENT" => some comment
  | _ => none

def isTrivia : Kind → Bool
  | whitespace | comment => true
  | _ => false

def isNumeric : Kind → Bool
  | integer | decimal | double | integerPositive | decimalPositive | doublePositive
  | integerNegative | decimalNegative | doubleNegative => true
  | _ => false

def isString : Kind → Bool
  | stringLiteral1 | stringLiteral2 | stringLiteralLong1 | stringLiteralLong2 => true
  | _ => false

/-- The name of a kind in records. All punctuation goes by one name. -/
def name : Kind → String
  | iriRef => "IriRef"
  | pnameLn => "PnameLn"
  | pnameNs => "PnameNs"
  | blankNodeLabel => "BlankNodeLabel"
  | var1 => "Var1"
  | var2 => "Var2"
  | langTag => "LangTag"
  | integer => "Integer"
  | decimal => "Decimal"
  | double => "Double"
  | integerPositive => "IntegerPositive"
  | decimalPositive => "DecimalPositive"
  | doublePositive => "DoublePositive"
  | integerNegative => "IntegerNegative"
  | decimalNegative => "DecimalNegative"
  | doubleNegative => "DoubleNegative"
  | stringLiteral1 => "StringLiteral1"
  | stringLiteral2 => "StringLiteral2"
  | stringLiteralLong1 => "StringLiteralLong1"
  | stringLiteralLong2 => "StringLiteralLong2"
  | nil => "Nil"
  | anon => "Anon"
  | booleanLiteral => "BooleanLiteral"
  | keyword => "Keyword"
  | identifier => "Identifier"
  | punctuation _ => "Punctuation"
  | whitespace => "Whitespace"
  | comment => "Comment"

def plain : List Kind :=
  [iriRef, pnameLn, pnameNs, blankNodeLabel, var1, var2, langTag, integer, decimal, double,
    integerPositive, decimalPositive, doublePositive, integerNegative, decimalNegative,
    doubleNegative, stringLiteral1, stringLiteral2, stringLiteralLong1, stringLiteralLong2, nil,
    anon, booleanLiteral, keyword, identifier, whitespace, comment]

def ofName? (name : String) : Option Kind := plain.find? (·.name = name)

def display : Kind → String
  | punctuation p => "'" ++ p.text ++ "'"
  | keyword => "keyword"
  | identifier => "identifier"
  | whitespace => "whitespace"
  | comment => "comment"
  | k => k.name

end Kind

end SparqlTokens
