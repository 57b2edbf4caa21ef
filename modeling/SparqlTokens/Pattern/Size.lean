import SparqlTokens.Pattern.ByteRanges
import SparqlTokens.Pattern.Expression
import SparqlTokens.Text.Bytes
/-!
The size of an expression as an automaton over bytes, without building it. The automaton is read
forwards to find where a match ends and backwards to find where it begins, and neither may be larger
than `sizeLimit` bytes. A state takes 32 bytes; one that tests for several ranges takes 8 more for
each of them, and one that branches takes 4 more for each branch.
-/

namespace SparqlTokens

namespace Pattern

def sizeLimit : Nat := 64 * 1024 * 1024

inductive Direction where
  | forward
  | backward
  deriving DecidableEq, Repr

def states (n : Nat) : Nat := 32 * n

def tests (n : Nat) : Nat := 8 * n

def exits (n : Nat) : Nat := 4 * n

def total (sizes : List Nat) : Nat := sizes.foldr (· + ·) 0

/-- Sequences that begin alike, as long as they follow one another. -/
def byHead {α : Type} [DecidableEq α] (seqs : List (List α)) : List (List (List α)) :=
  seqs.splitBy fun a b => a.head? = b.head?

/-- The states of an automaton that reads one of some sequences of ranges: each stands before the
sequences that may still follow. Sequences are of at most `bound` ranges. -/
def statesBefore {α : Type} [DecidableEq α] :
    Nat → List (List α) → List (List (List α))
  | 0, _ => []
  | bound + 1, seqs =>
    if seqs.all (·.isEmpty) then []
    else seqs :: (byHead seqs).flatMap fun group => statesBefore bound (group.map List.tail)

/-- The size of a set. Reading forwards, states before equal sequences are one; reading backwards,
sequences share the states of what they begin with. -/
def setSize (direction : Direction) (s : CharSet) : Nat :=
  let seqs := s.byteRanges
  if s.isAscii then states 2 + tests s.runs.length
  else match direction with
    | .forward =>
      let nodes := (statesBefore 4 seqs).eraseDups
      states (nodes.length + 1) + total (nodes.map fun seqs => tests (byHead seqs).length)
    | .backward =>
      let starts := seqs.flatMap fun seq => (List.range seq.length).map fun n => seq.take (n + 1)
      states (starts.eraseDups.length + 2) + exits seqs.length

/-- The size of the states that read some words of at most `bound` bytes, less the end they all lead
to. Words share states by what they begin with, but not across one that ends there: it is preferred
to those behind it. -/
def wordStates {α : Type} [DecidableEq α] : Nat → List (List α) → Nat
  | 0, _ => 0
  | bound + 1, words =>
    if words.all (·.isEmpty) then 0
    else
      let runs := (words.splitBy fun a b => !a.isEmpty && !b.isEmpty).filter (·.any (!·.isEmpty))
      let ends := (words.dropWhile (·.isEmpty)).count [] +
        if words.head?.any (·.isEmpty) then 1 else 0
      let sizes := runs.map fun run =>
        let heads := (run.filterMap List.head?).eraseDups
        states 1 + (if heads.length = 1 then 0 else tests heads.length) +
          total (heads.map fun b =>
            wordStates bound ((run.filter (·.head? = some b)).map List.tail))
      states 1 + exits (runs.length + ends) + total sizes

def wordsSize (direction : Direction) (words : List (List Char)) : Nat :=
  let words := words.map fun cs => cs.flatMap String.utf8EncodeChar
  let words := match direction with
    | .forward => words
    | .backward => words.map List.reverse
  states 1 + wordStates ((words.map List.length).foldl max 0 + 1) words

def roundsSize (least : Nat) (most : Option Nat) (reads : Bool) (size : Nat) : Nat :=
  let exactly := fun n => if n = 0 then states 1 else n * size
  match least, most with
  | 0, some 1 => states 2 + exits 2 + size
  | 0, none => if reads then states 1 + exits 2 + size else states 3 + exits 4 + size
  | 1, none => states 1 + exits 2 + size
  | n + 1, none => exactly n + size + states 1 + exits 2
  | n, some m =>
    if n = m then exactly n
    else exactly n + states 1 + (m - n) * (states 1 + exits 2 + size)

end Pattern

namespace Expression

open Pattern

def text? : Expression → Option (List Char)
  | text cs => some cs
  | _ => none

def isChoice : Expression → Bool
  | either _ _ => true
  | _ => false

/-- The size of an expression; `marked` tells whether its numbered groups are marked by states of
their own. `inner` tells whether it goes on with a choice of which it is the last alternative. -/
def sizeWith (direction : Direction) (marked : Bool) (inner : Bool) : Expression → Nat
  | empty | textStart | textEnd => states 1
  | text cs => states (Text.byteSize cs)
  | set s => setSize direction s
  | capture _ e => (if marked then states 2 else 0) + e.sizeWith direction marked false
  | repeated least most _ e =>
    roundsSize least most e.reads (e.sizeWith direction marked false)
  | cat e f => e.sizeWith direction marked false + f.sizeWith direction marked false
  | either e f =>
    let branching := (if inner then 0 else states 2) + exits (if f.isChoice then 1 else 2) +
      e.sizeWith direction marked false + f.sizeWith direction marked f.isChoice
    if inner then branching
    else match (either e f).branches.mapM text? with
      | some words => wordsSize direction words
      | none => branching

/-- What stands before an expression: little if it is tied to the side where reading begins,
and a loop over any text if not. -/
def leadSize (tied : Bool) : Nat := if tied then states 1 else states 3 + exits 2 + tests 1

/-- A size that an expression does not exceed, which is found without looking into its sets and
words: a run of a set takes no more than 21 sequences of 4 ranges, and a byte of a word no more than
3 states. -/
def sizeBound : Expression → Nat
  | empty | textStart | textEnd => states 1
  | text cs => states (12 * cs.length + 4)
  | set s => states (128 * (s.bounds.length + 1))
  | capture _ e => e.sizeBound + states 2
  | repeated least most _ e => (max least (most.getD least) + 2) * (e.sizeBound + states 4)
  | cat e f => e.sizeBound + f.sizeBound
  | either e f => e.sizeBound + f.sizeBound + states 4

/-- Whether an expression is within the limit either way. Read forwards, the whole match is marked
as its groups are. -/
def isWithinLimit (e : Expression) : Bool :=
  e.sizeBound + states 8 ≤ sizeLimit ||
    leadSize e.startsText + states 3 + e.sizeWith .forward true false ≤ sizeLimit &&
      leadSize e.endsText + states 1 + e.sizeWith .backward false false ≤ sizeLimit

def areWithinLimit (es : List Expression) : Bool :=
  let joint := match es with
    | [] => states 1
    | [_] => 0
    | _ => states 2 + exits es.length
  let size := fun direction => total (es.map fun e => e.sizeWith direction false false + states 1)
  total (es.map fun e => e.sizeBound + states 8) + states 8 ≤ sizeLimit ||
    leadSize (es.all startsText) + joint + size .forward ≤ sizeLimit &&
      leadSize (es.all endsText) + joint + size .backward ≤ sizeLimit

end Expression

end SparqlTokens
