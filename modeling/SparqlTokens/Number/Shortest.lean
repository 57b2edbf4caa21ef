import SparqlTokens.Number.Binary64
/-!
The shortest decimal that reads back as a given double, and of several such the nearest.

A finite double is `m * 2 ^ q`. The reals that round to it lie between the points halfway to its
neighbours, and include these points if `m` is even. Decimals with a given number of digits form a
grid; if the grid meets this interval, it does so in one of the two grid points around the double.
-/

namespace SparqlTokens

namespace Number

structure Binary where
  m : Nat
  q : Int
  /-- The gap to the next smaller double is half the gap to the next greater one. -/
  narrowBelow : Bool
  deriving DecidableEq, Repr

def Binary.ofBits (bits : UInt64) : Binary :=
  let e : Nat := (bits.toNat >>> 52) % 2048
  let f : Nat := bits.toNat % (1 <<< 52)
  if e = 0 then ⟨f, -1074, false⟩ else ⟨(1 <<< 52) + f, (e : Int) - 1075, f = 0 && 1 < e⟩

/-- Compares `a * 10 ^ i` with `b * 2 ^ j`. -/
def compareScaled (a : Nat) (i : Int) (b : Nat) (j : Int) : Ordering :=
  compare ((a * Nat.pow 10 i.toNat) <<< (-j).toNat) ((b * Nat.pow 10 (-i).toNat) <<< j.toNat)

namespace Binary

def roundsHere (x : Binary) (digits : Nat) (exponent : Int) : Bool :=
  let low := compareScaled digits exponent (if x.narrowBelow then 4 * x.m - 1 else 4 * x.m - 2)
    (x.q - 2)
  let high := compareScaled digits exponent (4 * x.m + 2) (x.q - 2)
  let even := x.m % 2 = 0
  (low = .gt || (even && low = .eq)) && (high = .lt || (even && high = .eq))

def decimalLength (n : Nat) : Nat := (Nat.toDigits 10 n).length

/-- The least `k` with `m * 2 ^ q < 10 ^ k`, for positive `m`. -/
def scale (x : Binary) : Int :=
  let whole := x.m <<< x.q.toNat >>> (-x.q).toNat
  if 0 < whole then decimalLength whole
  else 1 - (decimalLength ((1 <<< (-x.q).toNat - 1) / x.m) : Int)

def quotient (x : Binary) (exponent : Int) : Nat × Nat :=
  (x.m <<< x.q.toNat * Nat.pow 10 (-exponent).toNat, Nat.pow 10 exponent.toNat <<< (-x.q).toNat)

/-- The grid point of `10 ^ exponent` that rounds to the double; if both neighbours do, the nearer
one. An exact tie goes up, or to the even one. -/
def onGrid? (tieUp : Bool) (x : Binary) (exponent : Int) : Option Nat :=
  let (num, den) := x.quotient exponent
  let below := num / den
  match x.roundsHere below exponent, x.roundsHere (below + 1) exponent with
  | true, false => some below
  | false, true => some (below + 1)
  | false, false => none
  | true, true => match compare (2 * num) ((2 * below + 1) * den) with
    | .lt => some below
    | .gt => some (below + 1)
    | .eq => some (if tieUp || below % 2 = 1 then below + 1 else below)

/-- The first grid with a hit, from `digits` digits on. Seventeen digits always suffice. -/
def search (tieUp : Bool) (x : Binary) : Nat → Nat → Nat × Int
  | 0, digits => ((x.quotient (x.scale - digits)).1 / (x.quotient (x.scale - digits)).2,
      x.scale - digits)
  | more + 1, digits => match x.onGrid? tieUp (x.scale - digits) with
    | some n => (n, x.scale - digits)
    | none => search tieUp x more (digits + 1)

/-- Digits of the shortest decimal and its exponent: the value is `0.d₁d₂… * 10 ^ exponent`. -/
def shortest (tieUp : Bool) (x : Binary) : List Char × Int :=
  let (n, exponent) := x.search tieUp 17 1
  let digits := Nat.toDigits 10 n
  ((digits.reverse.dropWhile (· = '0')).reverse, exponent + digits.length)

end Binary

end Number

end SparqlTokens
