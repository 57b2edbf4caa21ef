import SparqlTokens.Pattern.Frontier
/-!
The match a pattern prefers. Where it can match in several ways, the earlier alternative of a choice
and the greedier (or, if lazy, the shorter) course of a repetition come first, and the match is the
first course that works out. `matchFrom` follows all courses through the text at once, best first,
and gives up those worse than one that has already ended.
-/

namespace SparqlTokens

namespace Pattern

/-- The number of characters read when the preferred course of `rs` ends; `read` have been read
before, and `found` is where a course worse than these has ended. -/
def matchFrom (atStart : Bool) (rs : List Residual) (read : Nat) (found : Option Nat) :
    List Char → Option Nat
  | [] => if (preferred (courses atStart none rs)).2 then some read else found
  | c :: text =>
    let now := preferred (courses atStart (some c) rs)
    let found := if now.2 then some read else found
    if now.1.isEmpty then found else matchFrom false now.1 (read + 1) found text

def searchFrom (p : Pattern) (atStart : Bool) (skipped : Nat) : List Char → Option Nat
  | [] => matchFrom atStart [[p]] skipped none []
  | c :: text => match matchFrom atStart [[p]] skipped none (c :: text) with
    | some n => some n
    | none => searchFrom p false (skipped + 1) text

def find? (p : Pattern) (text : List Char) : Option Nat :=
  if p.startsAtTextStart then matchFrom true [[p]] 0 none text else searchFrom p true 0 text

end Pattern

end SparqlTokens
