/-!
Templates: pattern text in which a name in braces refers to another rule.
-/

namespace SparqlTokens

namespace Template

inductive Piece where
  | char (c : Char)
  | reference (name : List Char)
  deriving DecidableEq, Repr

def Piece.text : Piece → List Char
  | char c => [c]
  | reference name => '{' :: name ++ ['}']

def isNameStart (c : Char) : Bool := c.isAlpha || c = '_'

def isNameChar (c : Char) : Bool := c.isAlphanum || c = '_'

/-- The name of the reference a text begins with. Braces around anything else are plain text. -/
def referenceAt? : List Char → Option (List Char)
  | '{' :: r =>
    let name := r.takeWhile isNameChar
    if name.head?.any isNameStart && (r.drop name.length).head? = some '}' then some name else none
  | _ => none

/-- The pieces of a text behind its first `skip` characters. -/
def splitFrom : Nat → List Char → List Piece
  | _, [] => []
  | skip + 1, _ :: r => splitFrom skip r
  | 0, c :: r => match referenceAt? (c :: r) with
    | some name => .reference name :: splitFrom (name.length + 1) r
    | none => .char c :: splitFrom 0 r

def split (template : List Char) : List Piece := splitFrom 0 template

end Template

end SparqlTokens
