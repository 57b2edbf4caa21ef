/-!
Sets of characters, each kept as the ascending numbers at which membership changes. A set has one
such list, so equal sets are equal.
-/

namespace SparqlTokens

structure CharSet where
  bounds : List Nat
  deriving BEq, ReflBEq, LawfulBEq, DecidableEq, Repr

namespace CharSet

/-- The number of a character among all characters. The surrogates, which lie among the code points
and are no characters, are not counted. -/
def ordinal (c : Char) : Nat := if c.toNat < 0xD800 then c.toNat else c.toNat - 0x800

def codePoint (n : Nat) : Nat := if n < 0xD800 then n else n + 0x800

/-- Whether an odd number of ascending bounds has been reached at `n`. -/
def insideAt (n : Nat) : List Nat → Bool
  | [] => false
  | b :: bs => if n < b then false else !insideAt n bs

def contains (s : CharSet) (c : Char) : Bool := insideAt (ordinal c) s.bounds

instance : Membership Char CharSet := ⟨fun s c => s.contains c = true⟩

instance (c : Char) (s : CharSet) : Decidable (c ∈ s) :=
  inferInstanceAs (Decidable (s.contains c = true))

def none : CharSet := ⟨[]⟩

def isEmpty (s : CharSet) : Bool := s.bounds.isEmpty

def range (lo hi : Char) : CharSet := ⟨[ordinal lo, ordinal hi + 1]⟩

def all : CharSet := ⟨[0, 0x10F800]⟩

def single (c : Char) : CharSet := range c c

def nextBound : List Nat → List Nat → Option Nat
  | [], [] => Option.none
  | b :: _, [] => some b
  | [], c :: _ => some c
  | b :: _, c :: _ => some (min b c)

/-- The bounds of the set whose members are told by `f` from membership in two sets. `inS` and `inT`
tell it below the bounds given, of which there are at most `bound`. -/
def combineBounds (f : Bool → Bool → Bool) : Nat → Bool → Bool → List Nat → List Nat → List Nat
  | 0, _, _, _, _ => []
  | bound + 1, inS, inT, bs, cs => match nextBound bs cs with
    | Option.none => []
    | some b =>
      let atS := if bs.head? = some b then !inS else inS
      let atT := if cs.head? = some b then !inT else inT
      let rest := combineBounds f bound atS atT
        (if bs.head? = some b then bs.tail else bs) (if cs.head? = some b then cs.tail else cs)
      if f inS inT = f atS atT then rest else b :: rest

def combine (f : Bool → Bool → Bool) (s t : CharSet) : CharSet :=
  ⟨combineBounds f (s.bounds.length + t.bounds.length) false false s.bounds t.bounds⟩

def union : CharSet → CharSet → CharSet := combine (· || ·)

def inter : CharSet → CharSet → CharSet := combine (· && ·)

def diff : CharSet → CharSet → CharSet := combine (· && !·)

def symmDiff : CharSet → CharSet → CharSet := combine (· != ·)

def compl (s : CharSet) : CharSet := all.diff s

def ofRanges (ranges : List (Char × Char)) : CharSet :=
  ((ranges.filter fun r => r.1 ≤ r.2).map fun r => range r.1 r.2).foldl union none

def notLineFeed : CharSet := compl (single '\n')

def only? (s : CharSet) : Option Char :=
  match s.bounds with
  | [n, m] => if m = n + 1 then some (Char.ofNat (codePoint n)) else Option.none
  | _ => Option.none

/-- The runs of members, each as its first and last number. -/
def runs (s : CharSet) : List (Nat × Nat) := pair s.bounds
where
  pair : List Nat → List (Nat × Nat)
    | lo :: hi :: r => (lo, hi - 1) :: pair r
    | _ => []

end CharSet

end SparqlTokens
