import SparqlTokens.Json.Fault
import SparqlTokens.Number.Notation
/-!
Numbers in JSON texts. A number without point and exponent is an integer if it fits into 64 bits.
Any other is a double: of its digits those are kept that fit into 64 bits, and the double nearest to
them is then scaled by the power of ten.
-/

namespace SparqlTokens

namespace Json

open Number (isDigit digitValue natOfDigits)

/-- The digits before the point. A zero in front stands alone. -/
def wholePart (cutOff : Flaw) : List Char → Except Fault ((List Char) × List Char)
  | [] => .error (.behind cutOff [])
  | '0' :: r =>
    if r.head?.any isDigit then .error (.atNext .badNumber r) else .ok (['0'], r)
  | r =>
    if r.head?.any isDigit then .ok (r.takeWhile isDigit, r.dropWhile isDigit)
    else .error (.atNext .badNumber r)

def digits (cutOff : Flaw) (text : List Char) : Except Fault ((List Char) × List Char) :=
  match text.takeWhile isDigit, text with
  | [], [] => .error (.behind cutOff [])
  | [], r => .error (.atNext .badNumber r)
  | ds, r => .ok (ds, r.dropWhile isDigit)

def fractionPart (cutOff : Flaw) : List Char → Except Fault ((List Char) × List Char)
  | '.' :: r => digits cutOff r
  | r => .ok ([], r)

def exponentPart (cutOff : Flaw) : List Char → Except Fault ((Bool × List Char) × List Char)
  | e :: r =>
    if e = 'e' ∨ e = 'E' then do
      let (negative, r) := Number.splitSign r
      let (ds, rest) ← digits cutOff r
      return ((negative, ds), rest)
    else .ok ((false, []), e :: r)
  | [] => .ok ((false, []), [])

structure Numeral where
  negative : Bool
  whole : List Char
  fraction : List Char
  exponentNegative : Bool
  exponent : List Char
  deriving DecidableEq, Repr

/-- A number from its sign or first digit on; `cutOff` is the flaw of a text that ends within it. -/
def numeral (cutOff : Flaw) (text : List Char) : Except Fault (Numeral × List Char) := do
  let (negative, text) := match text with
    | '-' :: r => (true, r)
    | r => (false, r)
  let (whole, text) ← wholePart cutOff text
  let (fraction, text) ← fractionPart cutOff text
  let ((exponentNegative, exponent), text) ← exponentPart cutOff text
  return (⟨negative, whole, fraction, exponentNegative, exponent⟩, text)

inductive Amount where
  | integer (n : Int)
  | double (bits : UInt64)
  deriving DecidableEq, Repr

namespace Amount

def display : Amount → String
  | integer n => "integer `" ++ toString n ++ "`"
  | double bits => "floating point `" ++ Number.recordText bits ++ "`"

end Amount

namespace Numeral

/-- Digits added to a number as long as it stays below 2^64, and how many are left. -/
def fill (n : Nat) : List Char → Nat × Nat
  | [] => (n, 0)
  | d :: ds =>
    if 10 * n + digitValue d < UInt64.size then fill (10 * n + digitValue d) ds
    else (n, ds.length + 1)

def power (n : Nat) : Float := Float.ofScientific 1 false n

/-- `n * 10 ^ exponent`; none if that is infinite. Below 10^-308 the power is taken in two steps. -/
def scaled? (n : Nat) (exponent : Int) : Option Float :=
  let f := Float.ofNat n
  if n = 0 then some 0
  else if 308 < exponent then none
  else if 0 ≤ exponent then
    let f := f * power exponent.toNat
    if f.isInf then none else some f
  else if -308 ≤ exponent then some (f / power exponent.natAbs)
  else if -616 ≤ exponent then some (f / power 308 / power (exponent.natAbs - 308))
  else some 0

def double? (x : Numeral) : Option UInt64 :=
  let (n, dropped) := fill 0 x.whole
  let (n, left) := fill n x.fraction
  let exponent : Int := natOfDigits x.exponent
  let exponent := if x.exponentNegative then -exponent else exponent
  (scaled? n (dropped - (x.fraction.length - left : Nat) + exponent)).map fun f =>
    if x.negative then f.toBits ||| Number.signBit else f.toBits

/-- The value of a number, if it is finite. A zero keeps its sign as a double. -/
def amount? (x : Numeral) : Option Amount :=
  let n := natOfDigits x.whole
  if x.fraction.isEmpty && x.exponent.isEmpty then
    if x.negative && 0 < n && n ≤ UInt64.size / 2 then some (.integer (-n))
    else if !x.negative && n < UInt64.size then some (.integer n)
    else x.double?.map .double
  else x.double?.map .double

end Numeral

def behindLarge (n : Nat) : List Char → List Char
  | [] => []
  | d :: ds => if UInt32.size / 2 ≤ 10 * n + digitValue d then ds
    else behindLarge (10 * n + digitValue d) ds

def amount (text : List Char) : Except Fault (Amount × List Char) := do
  let (x, rest) ← numeral .cutOffValue text
  match x.amount? with
  | some a => return (a, rest)
  | none => .error (.behind .numberTooLarge (behindLarge 0 x.exponent ++ rest))

end Json

end SparqlTokens
