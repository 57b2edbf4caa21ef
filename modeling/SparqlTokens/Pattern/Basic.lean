import SparqlTokens.Pattern.CharSet
/-!
Patterns as the matcher reads them. The sets and the choices in a pattern have place numbers, so
that equal parts at different places stay apart.
-/

namespace SparqlTokens

inductive Pattern where
  | empty
  | set (place : Nat) (s : CharSet)
  | textStart
  | textEnd
  | cat (p q : Pattern)
  /-- `p`, or else `q`. -/
  | either (place : Nat) (p q : Pattern)
  /-- Any number of rounds of `p`: rather more if greedy, rather fewer if not. -/
  | again (place : Nat) (greedy : Bool) (p : Pattern)
  | times (n : Nat) (p : Pattern)
  /-- At most `n` rounds of `p`. -/
  | upTo (place : Nat) (greedy : Bool) (n : Nat) (p : Pattern)
  deriving BEq, ReflBEq, LawfulBEq, DecidableEq, Repr

namespace Pattern

def join : Pattern → Pattern → Pattern
  | empty, q => q
  | p, empty => p
  | p, q => cat p q

/-- A choice. Alternatives that take one character each are one. -/
def choose (place : Nat) : Pattern → Pattern → Pattern
  | set place s, set _ t => set place (s.union t)
  | set place s, either next (set _ t) q => either next (set place (s.union t)) q
  | p, q => either place p q

def optional (place : Nat) (greedy : Bool) (p : Pattern) : Pattern :=
  if greedy then either place p empty else either place empty p

def ofText (place : Nat) : List Char → Pattern
  | [] => empty
  | c :: cs => join (set place (.single c)) (ofText (place + 1) cs)

def startsAtTextStart : Pattern → Bool
  | textStart => true
  | cat p _ => p.startsAtTextStart
  | either _ p q => p.startsAtTextStart && q.startsAtTextStart
  | times n p => n ≠ 0 && p.startsAtTextStart
  | _ => false

end Pattern

end SparqlTokens
