import SparqlTokens.Pattern.CharSet
/-!
Pattern expressions in a normal form. Groups that capture nothing are gone, neighbouring characters
are one text, a choice among single characters is a set, and what all alternatives of a choice begin
with stands in front of it. `sequence`, `choice` and `repetition` keep this form.

The form decides what a pattern prefers: a part that has moved in front of a choice is matched the
way it likes best before the choice is made.
-/

namespace SparqlTokens

inductive Expression where
  | empty
  /-- Some characters in a row, at least one. -/
  | text (cs : List Char)
  | set (s : CharSet)
  | textStart
  | textEnd
  /-- A numbered group. -/
  | capture (number : Nat) (e : Expression)
  | repeated (least : Nat) (most : Option Nat) (greedy : Bool) (e : Expression)
  | cat (e f : Expression)
  | either (e f : Expression)
  deriving BEq, ReflBEq, LawfulBEq, DecidableEq, Repr

namespace Expression

def ofSet (s : CharSet) : Expression :=
  match s.only? with
  | some c => text [c]
  | none => set s

def factors : Expression → List Expression
  | empty => []
  | cat e f => e :: f.factors
  | e => [e]

def branches : Expression → List Expression
  | either e f => e :: f.branches
  | e => [e]

def prepend (e : Expression) : List Expression → List Expression
  | [] => [e]
  | f :: fs => match e, f with
    | text cs, text ds => text (cs ++ ds) :: fs
    | e, f => e :: f :: fs

def ofFactors : List Expression → Expression
  | [] => empty
  | [e] => e
  | e :: es => cat e (ofFactors es)

def sequence (es : List Expression) : Expression :=
  ofFactors ((es.flatMap factors).foldr prepend [])

def singles? : Expression → Option CharSet
  | text [c] => some (.single c)
  | _ => none

def set? : Expression → Option CharSet
  | set s => some s
  | _ => none

def ofBranches : List Expression → Expression
  | [] => set .none
  | [e] => e
  | e :: es => either e (ofBranches es)

/-- A choice whose alternatives share no beginning. -/
def alternatives (es : List Expression) : Expression :=
  let es := es.flatMap branches
  match es with
  | [e] => e
  | es => match (es.mapM singles?).or (es.mapM set?) with
    | some sets => ofSet (sets.foldl .union .none)
    | none => ofBranches es

def commonStart {α : Type} [BEq α] : List α → List α → List α
  | a :: as, b :: bs => if a == b then a :: commonStart as bs else []
  | _, _ => []

/-- The factors that all of some sequences begin with. Only sequences of two factors or more have
any. -/
def sharedStart : List (List Expression) → List Expression
  | [] => []
  | fs :: rest =>
    if rest.isEmpty || (fs :: rest).any (·.length < 2) then [] else rest.foldl commonStart fs

def choice (es : List Expression) : Expression :=
  let es := es.flatMap branches
  match sharedStart (es.map factors) with
  | [] => alternatives es
  | shared =>
    let rests := es.map fun e => ofFactors (e.factors.drop shared.length)
    sequence (shared ++ [alternatives rests])

def shortest? : Expression → Option Nat
  | empty | textStart | textEnd => some 0
  | text cs => some cs.length
  | set s => if s.isEmpty then none else some 1
  | capture _ e => e.shortest?
  | repeated least _ _ e => e.shortest?.map (· * least)
  | cat e f => do return (← e.shortest?) + (← f.shortest?)
  | either e f => do return min (← e.shortest?) (← f.shortest?)

def isStill : Expression → Bool
  | empty | textStart | textEnd => true
  | text _ | set _ => false
  | capture _ e => e.isStill
  | repeated _ most _ e => most.isSome && e.isStill
  | cat e f => e.isStill && f.isStill
  | either e f => e.isStill && f.isStill

def reads (e : Expression) : Bool := e.shortest?.any (0 < ·)

/-- Rounds of `e`. What never reads anything is not repeated more than once. -/
def repetition (least : Nat) (most : Option Nat) (greedy : Bool) (e : Expression) : Expression :=
  let least := if e.isStill then min least 1 else least
  let most := if e.isStill then some (min (most.getD 1) 1) else most
  match least, most with
  | 0, some 0 => empty
  | 1, some 1 => e
  | least, most => repeated least most greedy e

def startsText : Expression → Bool
  | textStart => true
  | capture _ e => e.startsText
  | repeated least _ _ e => least ≠ 0 && e.startsText
  | cat e f => e.startsText || (e.isStill && f.startsText)
  | either e f => e.startsText && f.startsText
  | _ => false

def endsText : Expression → Bool
  | textEnd => true
  | capture _ e => e.endsText
  | repeated least _ _ e => least ≠ 0 && e.endsText
  | cat e f => f.endsText || (f.isStill && e.endsText)
  | either e f => e.endsText && f.endsText
  | _ => false

end Expression

end SparqlTokens
