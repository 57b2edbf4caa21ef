import SparqlTokens.Text.Place
import SparqlTokens.Token.Value
/-!
Tokens: a lexeme with its kind, the rule that cut it, and its place.
-/

namespace SparqlTokens

structure Token where
  kind : Kind
  rule : String
  lexeme : String
  range : Text.ByteRange
  /-- The position of the first character. -/
  start : Text.Position
  deriving DecidableEq, Repr

namespace Token

def isTrivia (t : Token) : Bool := t.kind.isTrivia

def value? (t : Token) : Option Value := Value.decode? t.kind t.lexeme

end Token

end SparqlTokens
