/-!
What a caller may choose about a run.
-/

namespace SparqlTokens

structure Settings where
  /-- Whitespace and comments are handed out as tokens instead of being passed over. -/
  emitWhitespace : Bool := false
  /-- The first error ends the run. -/
  stopOnFirstError : Bool := true
  /-- A number sign begins a comment. -/
  comments : Bool := true
  /-- How many characters of context an error quotes to either side. -/
  snippetRadius : Nat := 24
  deriving DecidableEq, Repr

end SparqlTokens
