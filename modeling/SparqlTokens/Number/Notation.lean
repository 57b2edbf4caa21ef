import SparqlTokens.Number.Shortest
/-!
How doubles are written: with the fewest digits that read back as the same double.
-/

namespace SparqlTokens

namespace Number

def zeros (n : Nat) : List Char := List.replicate n '0'

/-- Digits with the point behind place `point`, zeros filled in; nothing behind an integer. -/
def positional (digits : List Char) (point : Int) : List Char × List Char :=
  if point ≤ 0 then (['0'], zeros (-point).toNat ++ digits)
  else (digits.take point.toNat ++ zeros (point.toNat - digits.length), digits.drop point.toNat)

def signText (bits : UInt64) : List Char := if bits &&& signBit = 0 then [] else ['-']

def isZero (bits : UInt64) : Bool := bits &&& ~~~signBit = 0

def isInfinite (bits : UInt64) : Bool := bits &&& ~~~signBit = infinityBits

def plainText (bits : UInt64) : String :=
  String.ofList <|
    if isNaN bits then ['N', 'a', 'N']
    else signText bits ++
      if isInfinite bits then ['i', 'n', 'f']
      else if isZero bits then ['0']
      else
        let (digits, point) := (Binary.ofBits bits).shortest true
        match positional digits point with
        | (whole, []) => whole
        | (whole, fraction) => whole ++ '.' :: fraction

/-- A finite double as a record writes it: always with a point or an exponent. From 0.00001 up to
below 10^16 there is no exponent, elsewhere one with a sign. -/
def recordText (bits : UInt64) : String :=
  String.ofList <| signText bits ++
    if isZero bits then ['0', '.', '0']
    else
      let (digits, point) := (Binary.ofBits bits).shortest false
      if -5 < point ∧ point ≤ 16 then
        match positional digits point with
        | (whole, []) => whole ++ ['.', '0']
        | (whole, fraction) => whole ++ '.' :: fraction
      else
        let mantissa := match digits with
          | [d] => [d]
          | d :: ds => d :: '.' :: ds
          | [] => []
        let exponent := point - 1
        mantissa ++ 'e' :: (if exponent < 0 then '-' else '+') :: Nat.toDigits 10 exponent.natAbs

end Number

end SparqlTokens
