import SparqlTokens.Number.Integer
import SparqlTokens.Pattern.Properties
/-!
The symbols a pattern's text is made of: sets of characters, anchors, groups, choices and
repetitions. A set in brackets and an escape are one symbol each. A reader gives what it found and
the text behind it.

All literals, classes, anchors of the whole text, groups with and without a number or a name, and
repetitions are read. Two things are left out and refused: the boundaries of words, and flags, which
would change what the symbols behind them mean.
-/

namespace SparqlTokens

namespace Pattern

inductive Fault where
  | unopenedGroup
  | unclosedGroup
  | unclosedSet
  | reversedRange
  | nothingToRepeat
  | badCount
  | badEscape
  | badName
  | repeatedName
  | unknownProperty
  | leftOut
  | tooDeep
  | tooLarge
  deriving DecidableEq, Repr

inductive Opening where
  | plain
  | numbered
  | named (name : List Char)
  deriving DecidableEq, Repr

inductive Symbol where
  /-- A set, and how deep its text is nested. -/
  | set (s : CharSet) (depth : Nat)
  | textStart
  | textEnd
  | opening (o : Opening)
  | closing
  | bar
  | repeated (least : Nat) (most : Option Nat) (greedy : Bool)
  deriving DecidableEq, Repr

inductive Escape where
  | char (c : Char)
  | set (s : CharSet)
  | textStart
  | textEnd
  deriving DecidableEq, Repr

namespace Escape

def symbol : Escape → Symbol
  | char c => .set (.single c) 0
  | set s => .set s 0
  | textStart => .textStart
  | textEnd => .textEnd

def toChar : Escape → Except Fault Char
  | char c => .ok c
  | _ => .error .badEscape

def toSet : Escape → Except Fault CharSet
  | char c => .ok (.single c)
  | set s => .ok s
  | _ => .error .badEscape

end Escape

namespace Symbol

def charOf? (n : Nat) : Option Char := if n.isValidChar then some (Char.ofNat n) else none

def hexChar? (digits : List Char) : Option Char :=
  if digits.isEmpty then none
  else (Number.natOfHex? digits).bind charOf?

/-- A character written as a fixed number of hexadecimal digits, or as any number in braces. -/
def readHex (count : Nat) : List Char → Except Fault (Char × List Char)
  | '{' :: r => match hexChar? (r.takeWhile (· ≠ '}')), r.dropWhile (· ≠ '}') with
    | some c, _ :: rest => .ok (c, rest)
    | _, _ => .error .badEscape
  | text => match hexChar? (text.take count) with
    | some c => if count ≤ text.length then .ok (c, text.drop count) else .error .badEscape
    | none => .error .badEscape

/-- Escaped characters that stand for themselves: the ASCII ones but letters, digits and angle
brackets. -/
def standsForItself (c : Char) : Bool := c.toNat < 128 && !c.isAlphanum && c ≠ '<' && c ≠ '>'

section Reader

variable (properties : Properties)

def property (negated : Bool) (name : List Char) : Except Fault CharSet :=
  match properties.named? name with
  | none => .error .unknownProperty
  | some ranges => .ok (ranges.toSet negated)

def readProperty (negated : Bool) : List Char → Except Fault (CharSet × List Char)
  | [] => .error .badEscape
  | '{' :: r => match r.dropWhile (· ≠ '}') with
    | [] => .error .badEscape
    | _ :: rest => return (← property properties negated (r.takeWhile (· ≠ '}')), rest)
  | '\\' :: _ => .error .badEscape
  | c :: r => return (← property properties negated [c], r)

def escapeOf (c : Char) : Except Fault Escape :=
  match c with
  | 'n' => .ok (.char '\n')
  | 't' => .ok (.char '\t')
  | 'r' => .ok (.char '\r')
  | 'f' => .ok (.char '\x0c')
  | 'v' => .ok (.char '\x0b')
  | 'a' => .ok (.char '\x07')
  | 'd' => .ok (.set (properties.digits.toSet false))
  | 'D' => .ok (.set (properties.digits.toSet true))
  | 's' => .ok (.set (properties.spaces.toSet false))
  | 'S' => .ok (.set (properties.spaces.toSet true))
  | 'w' => .ok (.set (properties.words.toSet false))
  | 'W' => .ok (.set (properties.words.toSet true))
  | 'A' => .ok .textStart
  | 'z' => .ok .textEnd
  | 'b' | 'B' | '<' | '>' => .error .leftOut
  | c => if standsForItself c then .ok (.char c) else .error .badEscape

def readHexChar (count : Nat) (text : List Char) : Except Fault (Escape × List Char) := do
  let (c, rest) ← readHex count text
  return (.char c, rest)

def readClass (negated : Bool) (text : List Char) : Except Fault (Escape × List Char) := do
  let (s, rest) ← readProperty properties negated text
  return (.set s, rest)

def readEscape : List Char → Except Fault (Escape × List Char)
  | [] => .error .badEscape
  | 'x' :: r => readHexChar 2 r
  | 'u' :: r => readHexChar 4 r
  | 'U' :: r => readHexChar 8 r
  | 'p' :: r => readClass properties false r
  | 'P' :: r => readClass properties true r
  | c :: r => do return (← escapeOf properties c, r)

end Reader

/-- A set as written, with the depth to which brackets, lists of members and operations are nested
in it. -/
structure WrittenSet where
  set : CharSet := .none
  depth : Nat := 0

/-- A set whose bracket is open: the number of its parts so far, their union with the depth of the
deepest, and the operation that waits for its right side. -/
structure OpenSet where
  negated : Bool
  pending : Option ((CharSet → CharSet → CharSet) × WrittenSet) := none
  size : Nat := 0
  parts : WrittenSet := {}

namespace OpenSet

def add (o : OpenSet) (w : WrittenSet) : OpenSet :=
  { o with size := o.size + 1, parts := ⟨o.parts.set.union w.set, max o.parts.depth w.depth⟩ }

def addChar (o : OpenSet) (c : Char) : OpenSet := o.add ⟨.single c, 0⟩

def list (o : OpenSet) : WrittenSet :=
  if o.size < 2 then o.parts else { o.parts with depth := o.parts.depth + 1 }

def settled (o : OpenSet) : WrittenSet :=
  match o.pending with
  | none => o.list
  | some (f, left) => ⟨f left.set o.list.set, max left.depth o.list.depth + 1⟩

def operate (o : OpenSet) (f : CharSet → CharSet → CharSet) : OpenSet :=
  { o with pending := some (f, o.settled), size := 0, parts := {} }

def close (o : OpenSet) : WrittenSet :=
  { set := if o.negated then o.settled.set.compl else o.settled.set, depth := o.settled.depth + 1 }

end OpenSet

/-- Hyphens behind an opening bracket are members, and so is a closing bracket in first place. -/
def leadingMembers : OpenSet → List Char → OpenSet × List Char
  | o, '-' :: r => hyphens (o.addChar '-') r
  | o, ']' :: r => (o.addChar ']', r)
  | o, r => (o, r)
where
  hyphens : OpenSet → List Char → OpenSet × List Char
    | o, '-' :: r => hyphens (o.addChar '-') r
    | o, r => (o, r)

def openSet : List Char → OpenSet × List Char
  | '^' :: r => leadingMembers { negated := true } r
  | r => leadingMembers { negated := false } r

section Reader

variable (properties : Properties)

def readMember : List Char → Except Fault (Escape × List Char)
  | [] => .error .unclosedSet
  | '\\' :: r => readEscape properties r
  | c :: r => .ok (.char c, r)

def readRange (lo : Escape) (text : List Char) : Except Fault (CharSet × List Char) := do
  let lo ← lo.toChar
  let (hi, rest) ← readMember properties text
  let hi ← hi.toChar
  if lo ≤ hi then .ok (.range lo hi, rest) else .error .reversedRange

def readMembers (text : List Char) : Except Fault (CharSet × List Char) := do
  let (lo, rest) ← readMember properties text
  match rest with
  | '-' :: ']' :: _ => return (← lo.toSet, rest)
  | '-' :: '-' :: _ => return (← lo.toSet, rest)
  | '-' :: r => readRange properties lo r
  | _ => return (← lo.toSet, rest)

def bracketClass? (text : List Char) : Option (CharSet × List Char) :=
  match text.dropWhile (· ≠ ']') with
  | [] => none
  | _ :: rest => (asciiClass? (text.takeWhile (· ≠ ']'))).map fun s => (s, rest)

/-- A set from behind its opening bracket, inside the sets of `outer`. Each step reads a character,
so a text of `bound` characters is read to its end. A bracket that begins no class of ASCII opens a
set of its own. -/
def readSet : Nat → OpenSet → List OpenSet → List Char → Except Fault (WrittenSet × List Char)
  | 0, _, _, _ => .error .unclosedSet
  | _ + 1, _, _, [] => .error .unclosedSet
  | bound + 1, o, outer, ']' :: r =>
    match outer with
    | [] => .ok (o.close, r)
    | enclosing :: outer => readSet bound (enclosing.add o.close) outer r
  | bound + 1, o, outer, '[' :: r =>
    match bracketClass? r with
    | some (s, rest) => readSet bound (o.add ⟨s, 0⟩) outer rest
    | none => readSet bound (openSet r).1 (o :: outer) (openSet r).2
  | bound + 1, o, outer, '&' :: '&' :: r => readSet bound (o.operate .inter) outer r
  | bound + 1, o, outer, '-' :: '-' :: r => readSet bound (o.operate .diff) outer r
  | bound + 1, o, outer, '~' :: '~' :: r =>
    readSet bound (o.operate .symmDiff) outer r
  | bound + 1, o, outer, text => do
    let (s, rest) ← readMembers properties text
    readSet bound (o.add ⟨s, 0⟩) outer rest

def readName (text : List Char) : Except Fault (List Char × List Char) :=
  match text.takeWhile (· ≠ '>'), text.dropWhile (· ≠ '>') with
  | c :: cs, _ :: rest =>
    if properties.beginsName c && cs.all properties.continuesName then .ok (c :: cs, rest)
    else .error .badName
  | _, _ => .error .badName

end Reader

def isBlank (c : Char) : Bool :=
  ('\t' ≤ c && c ≤ '\r') || c = ' ' || c = '\u0085' || c = '\u00a0' || c = '\u1680' ||
    ('\u2000' ≤ c && c ≤ '\u200a') || c = '\u2028' || c = '\u2029' || c = '\u202f' ||
    c = '\u205f' || c = '\u3000'

/-- A number below 2^32 with blanks around it. -/
def readCount (text : List Char) : Except Fault (Nat × List Char) :=
  let text := text.dropWhile isBlank
  let digits := text.takeWhile Char.isDigit
  let n := digits.foldl (fun n c => 10 * n + (c.toNat - '0'.toNat)) 0
  if digits.isEmpty ∨ UInt32.size ≤ n then .error .badCount
  else .ok (n, (text.dropWhile Char.isDigit).dropWhile isBlank)

/-- A question mark behind a repetition makes it lazy. -/
def lazyMark : List Char → Bool × List Char
  | '?' :: r => (false, r)
  | r => (true, r)

def repetition (least : Nat) (most : Option Nat) (rest : List Char) :
    Except Fault (Symbol × List Char) :=
  .ok (.repeated least most (lazyMark rest).1, (lazyMark rest).2)

def readCounts (text : List Char) : Except Fault (Symbol × List Char) := do
  let (least, rest) ← readCount text
  match rest with
  | '}' :: r => repetition least (some least) r
  | ',' :: '}' :: r => repetition least none r
  | ',' :: r =>
    let (most, rest) ← readCount r
    match rest with
    | '}' :: r => if least ≤ most then repetition least (some most) r else .error .badCount
    | _ => .error .badCount
  | _ => .error .badCount

section Reader

variable (properties : Properties)

def readNamed (text : List Char) : Except Fault (Symbol × List Char) := do
  let (name, rest) ← readName properties text
  return (.opening (.named name), rest)

def read (c : Char) (r : List Char) : Except Fault (Symbol × List Char) :=
  match c, r with
  | '\\', r => do
    let (e, rest) ← readEscape properties r
    return (e.symbol, rest)
  | '[', r => do
    let (w, rest) ← readSet properties (r.length + 1) (openSet r).1 [] (openSet r).2
    return (.set w.set w.depth, rest)
  | '(', '?' :: ':' :: r => .ok (.opening .plain, r)
  | '(', '?' :: '<' :: r => readNamed properties r
  | '(', '?' :: 'P' :: '<' :: r => readNamed properties r
  | '(', '?' :: _ => .error .leftOut
  | '(', r => .ok (.opening .numbered, r)
  | ')', r => .ok (.closing, r)
  | '|', r => .ok (.bar, r)
  | '^', r => .ok (.textStart, r)
  | '$', r => .ok (.textEnd, r)
  | '.', r => .ok (.set .notLineFeed 0, r)
  | '*', r => repetition 0 none r
  | '+', r => repetition 1 none r
  | '?', r => repetition 0 (some 1) r
  | '{', r => readCounts r
  | c, r => .ok (.set (.single c) 0, r)

/-- All symbols of a text of at most `bound` characters; each of them takes at least one. -/
def readAllWith : Nat → List Char → Except Fault (List Symbol)
  | _, [] => .ok []
  | 0, _ :: _ => .error .badEscape
  | bound + 1, c :: r => do
    let (s, rest) ← read properties c r
    return s :: (← readAllWith bound rest)

def readAll (text : List Char) : Except Fault (List Symbol) :=
  readAllWith properties text.length text

end Reader

end Symbol

end Pattern

end SparqlTokens
