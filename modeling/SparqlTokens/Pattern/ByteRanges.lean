import SparqlTokens.Pattern.CharSet
/-!
Sets of characters as sequences of byte ranges: a character is in a set if its bytes in UTF-8 lie,
one by one, in the ranges of one of the sequences.
-/

namespace SparqlTokens

namespace CharSet

/-- The numbers from `lo` to `hi`, written with `tail` more digits to the base 64 behind the first,
as ranges of their digits. -/
def digitRanges : Nat → Nat → Nat → List (List (Nat × Nat))
  | 0, lo, hi => [[(lo, hi)]]
  | tail + 1, lo, hi =>
    let unit := Nat.pow 64 (tail + 1)
    let a := lo / unit
    let b := hi / unit
    if a = b then (digitRanges tail (lo % unit) (hi % unit)).map ((a, a) :: ·)
    else
      let wholeFrom := if lo % unit = 0 then a else a + 1
      let wholeTo := if hi % unit = unit - 1 then b + 1 else b
      (if lo % unit = 0 then []
        else (digitRanges tail (lo % unit) (unit - 1)).map ((a, a) :: ·)) ++
      (if wholeFrom < wholeTo
        then [(wholeFrom, wholeTo - 1) :: List.replicate (tail + 1) (0, 63)] else []) ++
      (if hi % unit = unit - 1 then []
        else (digitRanges tail 0 (hi % unit)).map ((b, b) :: ·))

/-- The first byte for the leading digit zero, and then each further byte for the digit zero. -/
def byteMarks (tail : Nat) : List Nat :=
  (match tail with | 0 => 0 | 1 => 0xC0 | 2 => 0xE0 | _ => 0xF0) :: List.replicate tail 0x80

/-- The runs of code points that take equally many bytes, with the number of bytes behind the
first. -/
def lengthClasses : List (Nat × Nat × Nat) :=
  [(0, 0x0, 0x7F), (1, 0x80, 0x7FF), (2, 0x800, 0xD7FF), (2, 0xE000, 0xFFFF),
    (3, 0x10000, 0x10FFFF)]

def runByteRanges (lo hi : Nat) : List (List (Nat × Nat)) :=
  lengthClasses.flatMap fun (tail, first, last) =>
    if max lo first ≤ min hi last then
      (digitRanges tail (max lo first) (min hi last)).map fun ranges =>
        List.zipWith (fun m r => (m + r.1, m + r.2)) (byteMarks tail) ranges
    else []

def byteRanges (s : CharSet) : List (List (Nat × Nat)) :=
  s.runs.flatMap fun (lo, hi) => runByteRanges (codePoint lo) (codePoint hi)

def isAscii (s : CharSet) : Bool := s.runs.all fun r => r.2 < 0x80

end CharSet

end SparqlTokens
