import SparqlTokens.Json.Basic
import SparqlTokens.Json.Number
/-!
Reading JSON texts. A reader takes the text from a certain place on and gives what it found there
with the text behind it. Text in quotes is either kept, and then has to be sound, or it is passed
over, where half of a surrogate pair does no harm.
-/

namespace SparqlTokens

namespace Json

def isBlank (c : Char) : Bool := c = ' ' || c = '\t' || c = '\n' || c = '\r'

def skipBlanks (text : List Char) : List Char := text.dropWhile isBlank

def word {α : Type} (meaning : α) : List Char → List Char → Except Fault (α × List Char)
  | [], r => .ok (meaning, r)
  | _ :: _, [] => .error (.behind .cutOffValue [])
  | c :: cs, d :: r => if d = c then word meaning cs r else .error (.atNext .badWord (d :: r))

/-- Four hexadecimal digits. The next four bytes are taken for them, whatever they are. -/
def hexEscape (text : List Char) : Except Fault (Nat × List Char) :=
  if Text.byteSize (text.take 4) < 4 then .error (.behind .cutOffString [])
  else match Number.natOfHex? (text.take 4) with
    | some n => .ok (n, text.drop 4)
    | none => .error ⟨.badEscape, text, 4⟩

def isHighSurrogate (n : Nat) : Bool := 0xd800 ≤ n && n ≤ 0xdbff

def isLowSurrogate (n : Nat) : Bool := 0xdc00 ≤ n && n ≤ 0xdfff

def paired (high low : Nat) : Char :=
  Char.ofNat (0x10000 + (high - 0xd800) * 0x400 + (low - 0xdc00))

/-- What is wrong behind the first half of a surrogate pair, if no second escape begins there. -/
def pairFault : List Char → Fault
  | [] => .behind .cutOffString []
  | ['\\'] => .behind .cutOffString []
  | '\\' :: r => .atNext .cutOffPair r
  | r => .atNext .cutOffPair r

def unicodeEscape (kept : Bool) (text : List Char) : Except Fault (Char × List Char) := do
  let (n, rest) ← hexEscape text
  let unpaired (f : Fault) : Except Fault (Char × List Char) :=
    if kept then .error f else .ok ('\ufffd', rest)
  if isLowSurrogate n then unpaired (.behind .loneSurrogate rest)
  else if !isHighSurrogate n then return (Char.ofNat n, rest)
  else match rest with
    | '\\' :: 'u' :: r =>
      let (m, r) ← hexEscape r
      if isLowSurrogate m then return (paired n m, r) else unpaired (.behind .loneSurrogate r)
    | r => unpaired (pairFault r)

def escapedChar? : Char → Option Char
  | '"' => some '"'
  | '\\' => some '\\'
  | '/' => some '/'
  | 'b' => some '\x08'
  | 'f' => some '\x0c'
  | 'n' => some '\n'
  | 'r' => some '\r'
  | 't' => some '\t'
  | _ => none

def escape (kept : Bool) : List Char → Except Fault (Char × List Char)
  | [] => .error (.behind .cutOffString [])
  | 'u' :: r => unicodeEscape kept r
  | c :: r => match escapedChar? c with
    | some d => .ok (d, r)
    | none => .error (.atNext .badEscape (c :: r))

/-- Quoted text of at most `bound` characters; `read` is what has been read of it, latest first. -/
def readQuotedWith (kept : Bool) : Nat → List Char → List Char → Except Fault (String × List Char)
  | 0, _, r => .error (.behind .cutOffString r)
  | _ + 1, _, [] => .error (.behind .cutOffString [])
  | bound + 1, read, c :: r =>
    if c = '"' then .ok (String.ofList read.reverse, r)
    else if c = '\\' then do
      let (d, r) ← escape kept r
      readQuotedWith kept bound (d :: read) r
    else if c < ' ' then .error ⟨.controlCharacter, c :: r, if kept then 1 else 0⟩
    else readQuotedWith kept bound (c :: read) r

def readQuoted (kept : Bool) (text : List Char) : Except Fault (String × List Char) :=
  readQuotedWith kept (text.length + 1) [] text

def colon (text : List Char) : Except Fault (Unit × List Char) :=
  match skipBlanks text with
  | ':' :: r => .ok ((), r)
  | [] => .error (.behind .cutOffObject [])
  | r => .error (.atNext .missingColon r)

def startsNumber (c : Char) : Bool := c = '-' || Number.isDigit c

def lexeme (text : List Char) : Except Fault (Json × List Char) := do
  let (_, rest) ← numeral .badNumber text
  return (number (String.ofList (text.take (text.length - rest.length))), rest)

mutual

def valueWith : Nat → List Char → Except Fault (Json × List Char)
  | 0, text => .error (.behind .cutOffValue text)
  | bound + 1, text => match skipBlanks text with
    | [] => .error (.behind .cutOffValue [])
    | 'n' :: r => word null ['u', 'l', 'l'] r
    | 't' :: r => word (bool true) ['r', 'u', 'e'] r
    | 'f' :: r => word (bool false) ['a', 'l', 's', 'e'] r
    | '"' :: r => do
      let (s, r) ← readQuoted false r
      return (string s, r)
    | '[' :: r => match skipBlanks r with
      | [] => .error (.behind .cutOffList [])
      | ']' :: r => .ok (array [], r)
      | r => do
        let (items, r) ← itemsWith bound r
        return (array items, r)
    | '{' :: r => match skipBlanks r with
      | '}' :: r => .ok (object [], r)
      | r => do
        let (fields, r) ← fieldsWith bound r
        return (object fields, r)
    | c :: r => if startsNumber c then lexeme (c :: r) else .error (.atNext .missingValue (c :: r))

def itemsWith : Nat → List Char → Except Fault (List Json × List Char)
  | 0, text => .error (.behind .cutOffList text)
  | bound + 1, text => do
    let (item, r) ← valueWith bound text
    match skipBlanks r with
    | [] => .error (.behind .cutOffList [])
    | ']' :: r => return ([item], r)
    | ',' :: r =>
      let (items, r) ← itemsWith bound r
      return (item :: items, r)
    | r => .error (.atNext .missingListComma r)

def fieldsWith : Nat → List Char → Except Fault (List (String × Json) × List Char)
  | 0, text => .error (.behind .cutOffObject text)
  | bound + 1, text => match skipBlanks text with
    | [] => .error (.behind .cutOffObject [])
    | '"' :: r => do
      let (key, r) ← readQuoted false r
      let (_, r) ← colon r
      let (item, r) ← valueWith bound r
      match skipBlanks r with
      | [] => .error (.behind .cutOffObject [])
      | '}' :: r => return ([(key, item)], r)
      | ',' :: r =>
        let (fields, r) ← fieldsWith bound r
        return ((key, item) :: fields, r)
      | r => .error (.atNext .missingObjectComma r)
    | r => .error (.atNext .keyNotString r)

end

def value (text : List Char) : Except Fault (Json × List Char) :=
  valueWith (2 * text.length + 2) text

def finished (text : List Char) : Except Fault Unit :=
  match skipBlanks text with
  | [] => .ok ()
  | r => .error (.atNext .trailingText r)

def parse (text : List Char) : Except Fault Json := do
  let (j, r) ← value text
  finished r
  return j

def bool? : Json → Option Bool
  | bool b => some b
  | _ => none

def string? : Json → Option String
  | string s => some s
  | _ => none

def natBelow? (limit : Nat) : Json → Option Nat
  | number text => match amount text.toList with
    | .ok (.integer n, []) => if 0 ≤ n ∧ n < limit then some n.toNat else none
    | _ => none
  | _ => none

def described : List Char → Except Fault (String × List Char)
  | 'n' :: r => word "null" ['u', 'l', 'l'] r
  | 't' :: r => word "boolean `true`" ['r', 'u', 'e'] r
  | 'f' :: r => word "boolean `false`" ['a', 'l', 's', 'e'] r
  | '"' :: r => do
    let (s, r) ← readQuoted true r
    return ("string " ++ String.ofList (Text.quoted s.toList), r)
  | '[' :: r => .ok ("sequence", '[' :: r)
  | '{' :: r => .ok ("map", '{' :: r)
  | c :: r =>
    if startsNumber c then do
      let (a, rest) ← amount (c :: r)
      return (a.display, rest)
    else .error (.atNext .missingValue (c :: r))
  | [] => .error (.behind .cutOffValue [])

def mismatch {α : Type} (wanted : String) (text : List Char) : Except Fault α := do
  let (found, r) ← described text
  .error (.behind (.wrongType found wanted) r)

def boolean (text : List Char) : Except Fault (Bool × List Char) :=
  match skipBlanks text with
  | 't' :: r => word true ['r', 'u', 'e'] r
  | 'f' :: r => word false ['a', 'l', 's', 'e'] r
  | r => mismatch "a boolean" r

def size (text : List Char) : Except Fault (Nat × List Char) :=
  match skipBlanks text with
  | c :: r =>
    if startsNumber c then do
      let (a, r) ← amount (c :: r)
      match a with
      | .integer n =>
        if 0 ≤ n then return (n.toNat, r)
        else .error (.behind (.wrongValue a.display "usize") r)
      | .double _ => .error (.behind (.wrongType a.display "usize") r)
    else mismatch "usize" (c :: r)
  | [] => mismatch "usize" []

end Json

end SparqlTokens
