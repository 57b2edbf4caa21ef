import SparqlTokens.Pattern.Basic
import SparqlTokens.Pattern.Expression
/-!
From an expression to a pattern: sets and choices get their places, and repetitions become rounds.
-/

namespace SparqlTokens

namespace Pattern

/-- At least `least` rounds of `p`, and at most `most` if that is given. `reads` tells whether a
round is sure to read something; if it is not, the choice to begin is a place of its own. -/
def repeated (place : Nat) (least : Nat) (most : Option Nat) (greedy reads : Bool) (p : Pattern) :
    Pattern :=
  match least, most with
  | 0, some 1 => optional place greedy p
  | 0, none =>
    if reads then again place greedy p
    else optional (place + 1) greedy (join p (again place greedy p))
  | 1, none => join p (again place greedy p)
  | n + 1, none => cat (times n p) (join p (again place greedy p))
  | 0, some m => upTo place greedy m p
  | n, some m => if n = m then times n p else cat (times n p) (upTo place greedy (m - n) p)

end Pattern

namespace Expression

/-- The pattern of an expression with places from `place` on, and the first place left. -/
def toPattern : Expression → Nat → Pattern × Nat
  | empty, place => (.empty, place)
  | text cs, place => (.ofText place cs, place + cs.length)
  | set s, place => (.set place s, place + 1)
  | textStart, place => (.textStart, place)
  | textEnd, place => (.textEnd, place)
  | capture _ e, place => e.toPattern place
  | repeated least most greedy e, place =>
    let (p, next) := e.toPattern (place + 2)
    (.repeated place least most greedy e.reads p, next)
  | cat e f, place =>
    let (p, next) := e.toPattern place
    let (q, next) := f.toPattern next
    (.join p q, next)
  | either e f, place =>
    let (p, next) := e.toPattern (place + 1)
    let (q, next) := f.toPattern next
    (.choose place p q, next)

def pattern (e : Expression) : Pattern := (e.toPattern 0).1

end Expression

end SparqlTokens
