/-!
Escapes: a backslash with one of eight letters or signs inside a string, and a backslash before a
sign inside a local name.
-/

namespace SparqlTokens

namespace Escape

def stringChar? : Char → Option Char
  | 't' => some '\t'
  | 'b' => some '\x08'
  | 'n' => some '\n'
  | 'r' => some '\r'
  | 'f' => some '\x0c'
  | '"' => some '"'
  | '\'' => some '\''
  | '\\' => some '\\'
  | _ => none

def localSigns : List Char :=
  ['_', '~', '.', '-', '!', '$', '&', '\'', '(', ')', '*', '+', ',', ';', '=', '/', '?', '#', '@',
    '%']

def unescapeString? : List Char → Option (List Char)
  | [] => some []
  | ['\\'] => none
  | '\\' :: c :: r => match stringChar? c with
    | some d => (unescapeString? r).map (d :: ·)
    | none => none
  | c :: r => (unescapeString? r).map (c :: ·)

/-- A local name without its escaping backslashes; a backslash at the very end is dropped too. -/
def unescapeLocal : List Char → List Char
  | [] => []
  | ['\\'] => []
  | '\\' :: c :: r => c :: unescapeLocal r
  | c :: r => c :: unescapeLocal r

end Escape

end SparqlTokens
