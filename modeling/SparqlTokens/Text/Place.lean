import SparqlTokens.Text.Bytes
/-!
Places in a text: lines and columns count from one, columns count characters, and only a line feed
ends a line. `Place` is kept up to date while a text is read; `LineStarts` finds the same line and
column for any byte offset afterwards. Both count without end: counters of 32 bits hold what is left
modulo 2^32, and so the same in a text of fewer than 2^32 - 1 characters.
-/

namespace SparqlTokens.Text

structure Position where
  line : Nat
  column : Nat
  deriving DecidableEq, Repr

def Position.display (p : Position) : String := toString p.line ++ ":" ++ toString p.column

structure Place where
  offset : Nat := 0
  line : Nat := 1
  column : Nat := 1
  deriving DecidableEq, Repr

namespace Place

def position (p : Place) : Position := ⟨p.line, p.column⟩

def step (p : Place) (c : Char) : Place :=
  if c = '\n' then { offset := p.offset + c.utf8Size, line := p.line + 1, column := 1 }
  else { p with offset := p.offset + c.utf8Size, column := p.column + 1 }

def advance (p : Place) (cs : List Char) : Place := cs.foldl step p

@[simp]
theorem advance_nil (p : Place) : p.advance [] = p := rfl

@[simp]
theorem advance_cons (p : Place) (c : Char) (r : List Char) :
    p.advance (c :: r) = (p.step c).advance r := rfl

theorem advance_append (p : Place) (before after : List Char) :
    p.advance (before ++ after) = (p.advance before).advance after := by
  simp [advance]

theorem offset_step (p : Place) (c : Char) : (p.step c).offset = p.offset + c.utf8Size := by
  unfold step
  split <;> rfl

theorem offset_advance (p : Place) (cs : List Char) :
    (p.advance cs).offset = p.offset + byteSize cs := by
  induction cs generalizing p with
  | nil => simp
  | cons c r ih => simp [ih, offset_step]; omega

end Place

structure LineStarts where
  starts : List Nat
  deriving DecidableEq, Repr

namespace LineStarts

def afterFeeds (offset : Nat) : List Char → List Nat
  | [] => []
  | c :: r =>
    if c = '\n' then (offset + 1) :: afterFeeds (offset + 1) r
    else afterFeeds (offset + c.utf8Size) r

def ofText (cs : List Char) : LineStarts := ⟨0 :: afterFeeds 0 cs⟩

def lineOf (l : LineStarts) (offset : Nat) : Nat := (l.starts.filter (· ≤ offset)).length - 1

def startOf (l : LineStarts) (line : Nat) : Nat := l.starts.getD line 0

/-- The position of a byte offset in `source`, clipped to its end. An offset inside a character
counts bytes from the start of the line, which keeps it on that line. -/
def position (l : LineStarts) (source : List Char) (offset : Nat) : Position :=
  let offset := min offset (byteSize source)
  let line := l.lineOf offset
  let column := match slice? (l.startOf line) offset source with
    | some read => read.length
    | none => offset - l.startOf line
  ⟨line + 1, column + 1⟩

def isLineEnd (c : Char) : Bool := c = '\n' || c = '\r'

/-- Line `line` of `source` without its terminator; empty past the last line. -/
def lineText (l : LineStarts) (source : List Char) (line : Nat) : List Char :=
  match l.starts[line - 1]? with
  | none => []
  | some start =>
    let stop := l.starts.getD (line - 1 + 1) (byteSize source)
    (((slice? start stop source).getD []).reverse.dropWhile isLineEnd).reverse

end LineStarts

end SparqlTokens.Text
