import SparqlTokens.Text.Bytes
/-!
The reserved words of SPARQL 1.1. They are written in any mixture of cases and listed in upper case,
in ascending order, except for `a`, which is a word of its own in lower case only.
-/

namespace SparqlTokens

namespace Keyword

def reserved : List String :=
  ["ABS", "ADD", "ALL", "AS", "ASC", "ASK", "AVG", "BASE", "BIND", "BNODE", "BOUND", "BY", "CEIL",
    "CLEAR", "COALESCE", "CONCAT", "CONSTRUCT", "CONTAINS", "COPY", "COUNT", "CREATE", "DATA",
    "DATATYPE", "DAY", "DEFAULT", "DELETE", "DESC", "DESCRIBE", "DISTINCT", "DROP",
    "ENCODE_FOR_URI", "EXISTS", "FILTER", "FLOOR", "FROM", "GRAPH", "GROUP", "GROUP_CONCAT",
    "HAVING", "HOURS", "IF", "IN", "INSERT", "INTO", "IRI", "ISBLANK", "ISIRI", "ISLITERAL",
    "ISNUMERIC", "ISURI", "LANG", "LANGMATCHES", "LCASE", "LIMIT", "LOAD", "MAX", "MD5", "MIN",
    "MINUS", "MINUTES", "MONTH", "MOVE", "NAMED", "NOT", "NOW", "OFFSET", "OPTIONAL", "ORDER",
    "PREFIX", "RAND", "REDUCED", "REGEX", "REPLACE", "ROUND", "SAMETERM", "SAMPLE", "SECONDS",
    "SELECT", "SEPARATOR", "SERVICE", "SHA1", "SHA256", "SHA384", "SHA512", "SILENT", "STR",
    "STRAFTER", "STRBEFORE", "STRDT", "STRENDS", "STRLANG", "STRLEN", "STRSTARTS", "STRUUID",
    "SUBSTR", "SUM", "TIMEZONE", "TO", "TZ", "UCASE", "UNDEF", "UNION", "URI", "USING", "UUID",
    "VALUES", "WHERE", "WITH", "YEAR"]

def upper (word : String) : String := String.ofList (word.toList.map Char.toUpper)

/-- The word in an ascending list that equals a given one. The list is halved until such a word
stands in the middle, or nothing is left. -/
def search? (word : String) (ascending : List String) : Option String :=
  match h : ascending.drop (ascending.length / 2) with
  | [] => none
  | middle :: above =>
    if word = middle then some middle
    else if word < middle then search? word (ascending.take (ascending.length / 2))
    else search? word above
termination_by ascending.length
decreasing_by
  all_goals
    have left := congrArg List.length h
    simp only [List.length_drop, List.length_cons, List.length_take] at left ⊢
    omega

/-- Whether a word is short enough to be reserved, and has characters of ASCII only. -/
def isPlausible (word : String) : Bool :=
  Text.byteSize word.toList ≤ 14 && word.toList.all fun c => c.toNat < 128

def canonical? (word : String) : Option String :=
  if word = "a" then some "a"
  else if isPlausible word then search? (upper word) reserved
  else none

def isKeyword (word : String) : Bool := (canonical? word).isSome

end Keyword

end SparqlTokens
