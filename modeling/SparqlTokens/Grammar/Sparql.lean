import SparqlTokens.Grammar.Table
/-!
The terminals of SPARQL 1.1, the value forms built from them, and the lexical categories between
them. Names reach up to U+FFFD; characters beyond are in no name.
-/

namespace SparqlTokens

namespace Sparql

def ref (rule : String) : String := "\x7b" ++ rule ++ "\x7d"

def terminals : List Definition := [
  ⟨"IRIREF", "<[^<>\"\x7b\x7d|^`\\\\\\x00-\\x20]*>"⟩,
  ⟨"PNAME_NS", ref "PN_PREFIX" ++ "?:"⟩,
  ⟨"PNAME_LN", ref "PNAME_NS" ++ ref "PN_LOCAL"⟩,
  ⟨"BLANK_NODE_LABEL",
    "_:(?:" ++ ref "PN_CHARS_U" ++ "|[0-9])(?:(?:" ++ ref "PN_CHARS" ++ "|\\.)*" ++
      ref "PN_CHARS" ++ ")?"⟩,
  ⟨"VAR1", "\\?" ++ ref "VARNAME"⟩,
  ⟨"VAR2", "\\$" ++ ref "VARNAME"⟩,
  ⟨"LANGTAG", "@[a-zA-Z]+(?:-[a-zA-Z0-9]+)*"⟩,
  ⟨"INTEGER", "[0-9]+"⟩,
  ⟨"DECIMAL", "[0-9]*\\.[0-9]+"⟩,
  ⟨"DOUBLE",
    "[0-9]+\\.[0-9]*" ++ ref "EXPONENT" ++ "|\\.[0-9]+" ++ ref "EXPONENT" ++ "|[0-9]+" ++
      ref "EXPONENT"⟩,
  ⟨"INTEGER_POSITIVE", "\\+" ++ ref "INTEGER"⟩,
  ⟨"DECIMAL_POSITIVE", "\\+" ++ ref "DECIMAL"⟩,
  ⟨"DOUBLE_POSITIVE", "\\+" ++ ref "DOUBLE"⟩,
  ⟨"INTEGER_NEGATIVE", "-" ++ ref "INTEGER"⟩,
  ⟨"DECIMAL_NEGATIVE", "-" ++ ref "DECIMAL"⟩,
  ⟨"DOUBLE_NEGATIVE", "-" ++ ref "DOUBLE"⟩,
  ⟨"EXPONENT", "[eE][+-]?[0-9]+"⟩,
  ⟨"STRING_LITERAL1", "'(?:[^\\x27\\x5C\\x0A\\x0D]|" ++ ref "ECHAR" ++ ")*'"⟩,
  ⟨"STRING_LITERAL2", "\"(?:[^\\x22\\x5C\\x0A\\x0D]|" ++ ref "ECHAR" ++ ")*\""⟩,
  ⟨"STRING_LITERAL_LONG1", "'''(?:(?:'|'')?(?:[^'\\\\]|" ++ ref "ECHAR" ++ "))*'''"⟩,
  ⟨"STRING_LITERAL_LONG2",
    "\"\"\"(?:(?:\"|\"\")?(?:[^\"\\\\]|" ++ ref "ECHAR" ++ "))*\"\"\""⟩,
  ⟨"ECHAR", "\\\\[tbnrf\\\\\"']"⟩,
  ⟨"NIL", "\\(" ++ ref "WS" ++ "*\\)"⟩,
  ⟨"WS", "[\\x20\\x09\\x0D\\x0A]"⟩,
  ⟨"ANON", "\\[" ++ ref "WS" ++ "*\\]"⟩,
  ⟨"PN_CHARS_BASE",
    "[A-Za-z\u00c0-\u00d6\u00d8-\u00f6\u00f8-\u02ff\u0370-\u037d\u037f-\u1fff\u200c-\u200d" ++
      "\u2070-\u218f\u2c00-\u2fef\u3001-\ud7ff\uf900-\ufdcf\ufdf0-\ufffd]"⟩,
  ⟨"PN_CHARS_U", ref "PN_CHARS_BASE" ++ "|_"⟩,
  ⟨"VARNAME",
    "(?:" ++ ref "PN_CHARS_U" ++ "|[0-9])(?:" ++ ref "PN_CHARS_U" ++
      "|[0-9]|\u00b7|[\u0300-\u036f]|[\u203f-\u2040])*"⟩,
  ⟨"PN_CHARS", ref "PN_CHARS_U" ++ "|-|[0-9]|\u00b7|[\u0300-\u036f]|[\u203f-\u2040]"⟩,
  ⟨"PN_PREFIX",
    ref "PN_CHARS_BASE" ++ "(?:(?:" ++ ref "PN_CHARS" ++ "|\\.)*" ++ ref "PN_CHARS" ++ ")?"⟩,
  ⟨"PN_LOCAL",
    "(?:" ++ ref "PN_CHARS_U" ++ "|:|[0-9]|" ++ ref "PLX" ++ ")(?:(?:" ++ ref "PN_CHARS" ++
      "|\\.|:|" ++ ref "PLX" ++ ")*(?:" ++ ref "PN_CHARS" ++ "|:|" ++ ref "PLX" ++ "))?"⟩,
  ⟨"PLX", ref "PERCENT" ++ "|" ++ ref "PN_LOCAL_ESC"⟩,
  ⟨"PERCENT", "%" ++ ref "HEX" ++ ref "HEX"⟩,
  ⟨"HEX", "[0-9A-Fa-f]"⟩,
  ⟨"PN_LOCAL_ESC", "\\\\[_~.\\-!$&'()*+,;=/?#@%]"⟩]

def values : List Definition := [
  ⟨"NumericLiteral",
    ref "NumericLiteralUnsigned" ++ "|" ++ ref "NumericLiteralPositive" ++ "|" ++
      ref "NumericLiteralNegative"⟩,
  ⟨"NumericLiteralUnsigned", ref "DOUBLE" ++ "|" ++ ref "DECIMAL" ++ "|" ++ ref "INTEGER"⟩,
  ⟨"NumericLiteralPositive",
    ref "DOUBLE_POSITIVE" ++ "|" ++ ref "DECIMAL_POSITIVE" ++ "|" ++ ref "INTEGER_POSITIVE"⟩,
  ⟨"NumericLiteralNegative",
    ref "DOUBLE_NEGATIVE" ++ "|" ++ ref "DECIMAL_NEGATIVE" ++ "|" ++ ref "INTEGER_NEGATIVE"⟩,
  ⟨"BooleanLiteral", "true|false"⟩,
  ⟨"String",
    ref "STRING_LITERAL_LONG1" ++ "|" ++ ref "STRING_LITERAL_LONG2" ++ "|" ++
      ref "STRING_LITERAL1" ++ "|" ++ ref "STRING_LITERAL2"⟩,
  ⟨"PrefixedName", ref "PNAME_LN" ++ "|" ++ ref "PNAME_NS"⟩,
  ⟨"iri", ref "IRIREF" ++ "|" ++ ref "PrefixedName"⟩,
  ⟨"RDFLiteral", ref "String" ++ "(?:" ++ ref "LANGTAG" ++ "|\\^\\^" ++ ref "iri" ++ ")?"⟩,
  ⟨"BlankNode", ref "BLANK_NODE_LABEL" ++ "|" ++ ref "ANON"⟩,
  ⟨"DataBlockValue",
    ref "iri" ++ "|" ++ ref "RDFLiteral" ++ "|" ++ ref "NumericLiteral" ++ "|" ++
      ref "BooleanLiteral" ++ "|UNDEF"⟩]

def categories : List Definition := [
  ⟨"WHITESPACE", ref "WS" ++ "+"⟩,
  ⟨"COMMENT", "#[^\\r\\n]*"⟩,
  ⟨"IDENT", ref "PN_CHARS_U" ++ ref "PN_CHARS" ++ "*"⟩,
  ⟨"PUNCT", "\\^\\^|\\|\\||&&|!=|<=|>=|[\x7b\x7d()\\[\\].,;=<>+\\-*/!?|^]"⟩]

def definitions : List Definition := terminals ++ values ++ categories

/-- The rules that make tokens. Of matches of equal length, the one named first counts. -/
def priority : List String :=
  ["DOUBLE", "DOUBLE_POSITIVE", "DOUBLE_NEGATIVE", "DECIMAL", "DECIMAL_POSITIVE",
    "DECIMAL_NEGATIVE", "INTEGER", "INTEGER_POSITIVE", "INTEGER_NEGATIVE", "STRING_LITERAL_LONG1",
    "STRING_LITERAL_LONG2", "STRING_LITERAL1", "STRING_LITERAL2", "IRIREF", "PNAME_LN", "PNAME_NS",
    "BLANK_NODE_LABEL", "VAR1", "VAR2", "LANGTAG", "NIL", "ANON", "BooleanLiteral", "IDENT",
    "WHITESPACE", "COMMENT", "PUNCT"]

def table : Table := (Table.build definitions priority).toOption.getD .empty

end Sparql

end SparqlTokens
