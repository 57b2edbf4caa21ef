import SparqlTokens.Pattern.Match
import SparqlTokens.Pattern.Places
import SparqlTokens.Pattern.Size
import SparqlTokens.Pattern.Symbol
/-!
From symbols to an expression. A group that is still open waits, with the alternatives and the parts
it has so far, until its closing symbol makes one part of it. Texts that nest too deep and
expressions that are too large are refused.
-/

namespace SparqlTokens

namespace Pattern

def depthLimit : Nat := 250

structure Part where
  expression : Expression
  depth : Nat
  deriving DecidableEq, Repr

namespace Part

/-- Joins parts by `f`. Two or more are nested one deeper than the deepest of them. -/
def joined (f : List Expression → Expression) : List Part → Part
  | [] => ⟨f [], 0⟩
  | [p] => p
  | ps => ⟨f (ps.map (·.expression)), (ps.map (·.depth)).foldl max 0 + 1⟩

def within (p : Part) (f : Expression → Expression) : Except Fault Part :=
  if p.depth < depthLimit then .ok ⟨f p.expression, p.depth + 1⟩ else .error .tooDeep

end Part

/-- A group under construction: its number, if it has one, the alternatives before the current one,
and the parts of the current one, all latest first. -/
structure Group where
  number : Option Nat := none
  earlier : List Part := []
  parts : List Part := []
  deriving DecidableEq, Repr

namespace Group

def add (g : Group) (p : Part) : Group := { g with parts := p :: g.parts }

def current (g : Group) : Part := .joined .sequence g.parts.reverse

def all (g : Group) : Part := .joined .choice (g.current :: g.earlier).reverse

def close (g : Group) : Except Fault Part :=
  g.all.within fun e => match g.number with
    | none => e
    | some n => .capture n e

end Group

/-- The innermost open group and those around it, innermost first, the number of groups that have a
number, and the names that some of these have. -/
structure Assembly where
  inner : Group := {}
  outer : List Group := []
  numbered : Nat := 0
  names : List (List Char) := []
  deriving DecidableEq, Repr

namespace Assembly

def add (a : Assembly) (e : Expression) (depth : Nat) : Assembly :=
  { a with inner := a.inner.add ⟨e, depth⟩ }

def openGroup (a : Assembly) : Opening → Except Fault Assembly
  | .plain => .ok { a with inner := {}, outer := a.inner :: a.outer }
  | .numbered =>
    .ok { a with inner := { number := some a.numbered }, outer := a.inner :: a.outer,
                 numbered := a.numbered + 1 }
  | .named name =>
    if a.names.contains name then .error .repeatedName
    else .ok { inner := { number := some a.numbered }, outer := a.inner :: a.outer,
               numbered := a.numbered + 1, names := name :: a.names }

def step (a : Assembly) : Symbol → Except Fault Assembly
  | .set s depth => .ok (a.add (.ofSet s) depth)
  | .textStart => .ok (a.add .textStart 0)
  | .textEnd => .ok (a.add .textEnd 0)
  | .opening o => a.openGroup o
  | .closing => match a.outer with
    | [] => .error .unopenedGroup
    | g :: outer => do return { a with inner := g.add (← a.inner.close), outer }
  | .bar =>
    .ok { a with inner := { a.inner with earlier := a.inner.current :: a.inner.earlier,
                                         parts := [] } }
  | .repeated least most greedy => match a.inner.parts with
    | [] => .error .nothingToRepeat
    | p :: parts => do
      let p ← p.within (.repetition least most greedy)
      return { a with inner := { a.inner with parts := p :: parts } }

def finish (a : Assembly) : Except Fault Expression :=
  if !a.outer.isEmpty then .error .unclosedGroup
  else if depthLimit < a.inner.all.depth then .error .tooDeep
  else .ok a.inner.all.expression

end Assembly

end Pattern

namespace Expression

open Pattern (Fault Symbol Assembly Properties)

def ofSymbols (symbols : List Symbol) : Except Fault Expression := do
  (← symbols.foldlM Assembly.step {}).finish

def parse (properties : Properties) (text : List Char) : Except Fault Expression := do
  let e ← ofSymbols (← Symbol.readAll properties text)
  if e.isWithinLimit then return e else throw .tooLarge

end Expression

end SparqlTokens
