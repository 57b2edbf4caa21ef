import SparqlTokens.Json.Reader
import SparqlTokens.Lexing.LexicalError
/-!
Lexical errors as JSON: an object of five fields, or an array of their values in order.
-/

namespace SparqlTokens

/-- A kind by its code, which may also stand as the only key of an object, before a null. -/
def FailureKind.ofJson? : Json → Option FailureKind
  | .string code => ofCode? code
  | .object fields => match (fields.map (·.1)).eraseDups with
    | [code] => match (Json.object fields).field? code with
      | some .null => ofCode? code
      | _ => none
    | _ => none
  | _ => none

namespace LexicalError

def toJson (e : LexicalError) : Json :=
  .object [("kind", .string e.kind.code), ("offset", .nat e.offset), ("line", .nat e.line),
    ("column", .nat e.column), ("snippet", .string e.snippet)]

def ofParts? (kind offset line column snippet : Json) : Option LexicalError := do
  return {
    kind := ← FailureKind.ofJson? kind
    offset := ← offset.natBelow? UInt64.size
    line := ← line.natBelow? UInt32.size
    column := ← column.natBelow? UInt32.size
    snippet := ← snippet.string? }

def ofJson? (j : Json) : Option LexicalError :=
  match j with
  | .object _ => do
    ofParts? (← j.field? "kind") (← j.field? "offset") (← j.field? "line") (← j.field? "column")
      (← j.field? "snippet")
  | .array [kind, offset, line, column, snippet] => ofParts? kind offset line column snippet
  | _ => none

end LexicalError

end SparqlTokens
