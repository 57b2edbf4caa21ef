import SparqlTokens.Json.Basic
import SparqlTokens.Number.Notation
import SparqlTokens.Token.Basic
/-!
Tokens as JSON records: kind, rule, lexeme, place, and the value if there is one.
-/

namespace SparqlTokens

def Kind.toJson : Kind → Json
  | .punctuation p => .object [("Punctuation", .string p.name)]
  | k => .string k.name

namespace Value

def typeName : Value → String
  | iri _ => "iri"
  | prefixedName _ _ => "prefixedName"
  | var _ => "var"
  | langTag _ => "langTag"
  | blankNode _ => "blankNode"
  | string _ => "string"
  | integer _ => "integer"
  | bigInteger _ => "bigInteger"
  | decimal _ => "decimal"
  | double _ => "double"
  | boolean _ => "boolean"
  | keyword _ => "keyword"
  | identifier _ => "identifier"

/-- A value without its type. A double that is infinite or no number is null. -/
def content : Value → Json
  | prefixedName label localName =>
    .object [("prefix", .string label), ("local", .string localName)]
  | integer n => .int n
  | double bits => if Number.isFinite bits then .number (Number.recordText bits) else .null
  | boolean b => .bool b
  | iri s | var s | langTag s | blankNode s | string s | bigInteger s | decimal s | keyword s
  | identifier s => .string s

def toJson (v : Value) : Json := .object [("type", .string v.typeName), ("value", v.content)]

end Value

namespace Token

def toJson (t : Token) : Json :=
  .object ([("kind", t.kind.toJson), ("rule", .string t.rule), ("lexeme", .string t.lexeme),
      ("span", .object [("start", .nat t.range.start), ("end", .nat t.range.stop)]),
      ("start", .object [("line", .nat t.start.line), ("col", .nat t.start.column)])] ++
    t.value?.toList.map fun v => ("value", v.toJson))

def records (tokens : List Token) : String := (Json.array (tokens.map toJson)).pretty ""

end Token

end SparqlTokens
