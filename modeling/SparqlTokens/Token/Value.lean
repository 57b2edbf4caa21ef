import SparqlTokens.Number.Binary64
import SparqlTokens.Text.Bytes
import SparqlTokens.Token.Escape
import SparqlTokens.Token.Kind
/-!
The value a token carries, decoded from its lexeme.
-/

namespace SparqlTokens

inductive Value where
  /-- The text between the angle brackets. -/
  | iri (text : String)
  /-- The local name is without its escapes. -/
  | prefixedName (label localName : String)
  | var (name : String)
  | langTag (tag : String)
  | blankNode (label : String)
  | string (text : String)
  | integer (n : Int)
  /-- An integer beyond 64 bits, as written. -/
  | bigInteger (lexeme : String)
  /-- A decimal as written, so nothing is rounded. -/
  | decimal (lexeme : String)
  | double (bits : UInt64)
  | boolean (b : Bool)
  | keyword (word : String)
  | identifier (word : String)
  deriving DecidableEq, Repr

namespace Value

def strip? (head tail : Nat) (lexeme : List Char) : Option (List Char) :=
  if tail ≤ Text.byteSize lexeme then
    Text.slice? head (Text.byteSize lexeme - tail) lexeme
  else none

def splitAtColon? (lexeme : List Char) : Option (List Char × List Char) :=
  match lexeme.dropWhile (· ≠ ':') with
  | _ :: r => some (lexeme.takeWhile (· ≠ ':'), r)
  | [] => none

def stringBody? (delimiter : Nat) (lexeme : List Char) : Option Value :=
  ((strip? delimiter delimiter lexeme).bind Escape.unescapeString?).map
    fun s => string (String.ofList s)

/-- The value of a lexeme as a token of a kind. Kinds without content have none, and a lexeme that
lacks its delimiters or its content may have none. -/
def decode? (kind : Kind) (lexeme : String) : Option Value :=
  let text := lexeme.toList
  match kind with
  | .iriRef => (strip? 1 1 text).map fun s => iri (String.ofList s)
  | .pnameLn | .pnameNs => (splitAtColon? text).map fun (label, rest) =>
    prefixedName (String.ofList label) (String.ofList (Escape.unescapeLocal rest))
  | .var1 | .var2 => (strip? 1 0 text).map fun s => var (String.ofList s)
  | .langTag => (strip? 1 0 text).map fun s => langTag (String.ofList s)
  | .blankNodeLabel => match text with
    | '_' :: ':' :: r => some (blankNode (String.ofList r))
    | _ => none
  | .stringLiteral1 | .stringLiteral2 => stringBody? 1 text
  | .stringLiteralLong1 | .stringLiteralLong2 => stringBody? 3 text
  | .integer | .integerPositive | .integerNegative => match Number.int64? text with
    | some n => some (integer n)
    | none => some (bigInteger lexeme)
  | .decimal | .decimalPositive | .decimalNegative => some (decimal lexeme)
  | .double | .doublePositive | .doubleNegative => (Number.double? text).map double
  | .booleanLiteral => some (boolean (lexeme = "true"))
  | .keyword => (Keyword.canonical? lexeme).map keyword
  | .identifier => some (identifier lexeme)
  | .nil | .anon | .punctuation _ | .whitespace | .comment => none

end Value

end SparqlTokens
