import SparqlTokens.Lexing.Failure
import SparqlTokens.Text.Place
/-!
Lexical errors: a failure at its place in the text, with a piece of the line around it.
-/

namespace SparqlTokens

structure LexicalError where
  kind : FailureKind
  /-- In bytes. -/
  offset : Nat
  line : Nat
  column : Nat
  snippet : String
  deriving DecidableEq, Repr

namespace LexicalError

def message (e : LexicalError) : String :=
  e.kind.description ++ " at line " ++ toString e.line ++ ", column " ++ toString e.column ++
    " (offset " ++ toString e.offset ++ "): `" ++ e.snippet ++ "`"

/-- Up to `radius` characters to either side of a place in its line. `passed` is the text before the
place, latest character first. The line begins behind a line feed, and ends before a line feed or a
carriage return. -/
def window (radius : Nat) (passed rest : List Char) : List Char :=
  let before := (passed.takeWhile (· ≠ '\n')).reverse
  let line := before ++ rest.takeWhile fun c => c ≠ '\n' && c ≠ '\r'
  let start := before.length - radius
  (line.drop start).take (before.length + radius - start)

end LexicalError

end SparqlTokens
