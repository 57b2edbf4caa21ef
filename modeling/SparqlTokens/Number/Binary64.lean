import SparqlTokens.Number.Integer
/-!
Floating point numbers of 64 bits as decimal texts write them. A value is held as its bit pattern,
so that the sign of zero and the infinities are kept.
-/

namespace SparqlTokens

namespace Number

/-- A decimal number `digits * 10 ^ exponent` with a sign. -/
structure Decimal where
  negative : Bool
  digits : Nat
  exponent : Int
  deriving DecidableEq, Repr

def infinityBits : UInt64 := 0x7ff0000000000000

def nanBits : UInt64 := 0x7ff8000000000000

def signBit : UInt64 := 0x8000000000000000

def isFinite (bits : UInt64) : Bool := bits &&& ~~~signBit < infinityBits

def isNaN (bits : UInt64) : Bool := infinityBits < bits &&& ~~~signBit

/-- Bits of the double nearest to a decimal, ties to even. Decimals below 10^-400 are zero and those
from 10^400 on are infinite, which spares computing them out. -/
def Decimal.bits (d : Decimal) : UInt64 :=
  let magnitude : Int := d.exponent + (Nat.toDigits 10 d.digits).length
  let size : UInt64 :=
    if d.digits = 0 ∨ magnitude < -400 then 0
    else if 400 < magnitude then infinityBits
    else (Float.ofScientific d.digits (d.exponent < 0) d.exponent.natAbs).toBits
  if d.negative then size ||| signBit else size

def exponent? : List Char → Option Int
  | [] => some 0
  | e :: r =>
    if e = 'e' ∨ e = 'E' then
      let (negative, digits) := splitSign r
      if digits.isEmpty || !digits.all isDigit then none
      else some (if negative then -(natOfDigits digits : Int) else natOfDigits digits)
    else none

def decimal? (text : List Char) : Option Decimal :=
  let (negative, text) := splitSign text
  let whole := text.takeWhile isDigit
  let text := text.dropWhile isDigit
  let (fraction, text) := match text with
    | '.' :: r => (r.takeWhile isDigit, r.dropWhile isDigit)
    | r => ([], r)
  if whole.isEmpty && fraction.isEmpty then none
  else (exponent? text).map fun e =>
    { negative, digits := natOfDigits (whole ++ fraction), exponent := e - fraction.length }

def lower (text : List Char) : List Char := text.map Char.toLower

/-- The double a text writes: a decimal, or one of the words for infinity and for no number. -/
def double? (text : List Char) : Option UInt64 :=
  let (negative, word) := splitSign text
  let signed (bits : UInt64) := if negative then bits ||| signBit else bits
  if lower word = ['i', 'n', 'f'] ∨ lower word = ['i', 'n', 'f', 'i', 'n', 'i', 't', 'y'] then
    some (signed infinityBits)
  else if lower word = ['n', 'a', 'n'] then some (signed nanBits)
  else (decimal? text).map Decimal.bits

end Number

end SparqlTokens
