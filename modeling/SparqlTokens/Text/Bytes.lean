/-!
Text addressed in bytes of its UTF-8 encoding. A byte offset names a place between two characters
or none at all: an offset inside a character, or past the end, has no text behind it.
-/

namespace SparqlTokens.Text

def byteSize (cs : List Char) : Nat := cs.foldr (fun c n => c.utf8Size + n) 0

@[simp]
theorem byteSize_nil : byteSize [] = 0 := rfl

@[simp]
theorem byteSize_cons (c : Char) (r : List Char) : byteSize (c :: r) = c.utf8Size + byteSize r := rfl

@[simp]
theorem byteSize_append (p r : List Char) : byteSize (p ++ r) = byteSize p + byteSize r := by
  induction p with
  | nil => simp
  | cons c p ih => simp [ih, Nat.add_assoc]

/-- The text from byte `n` on, if that byte begins a character or is the end. -/
def dropBytes? : Nat → List Char → Option (List Char)
  | 0, cs => some cs
  | _ + 1, [] => none
  | n + 1, c :: r => if c.utf8Size ≤ n + 1 then dropBytes? (n + 1 - c.utf8Size) r else none

def takeBytes? : Nat → List Char → Option (List Char)
  | 0, _ => some []
  | _ + 1, [] => none
  | n + 1, c :: r =>
    if c.utf8Size ≤ n + 1 then (takeBytes? (n + 1 - c.utf8Size) r).map (c :: ·) else none

theorem dropBytes?_byteSize_append (p r : List Char) :
    dropBytes? (byteSize p) (p ++ r) = some r := by
  induction p with
  | nil => simp [dropBytes?]
  | cons c p ih =>
    have positive := c.utf8Size_pos
    obtain ⟨n, hn⟩ : ∃ n, byteSize (c :: p) = n + 1 := ⟨byteSize (c :: p) - 1, by simp; omega⟩
    have size : n + 1 - c.utf8Size = byteSize p := by simp at hn; omega
    have fits : c.utf8Size ≤ n + 1 := by simp at hn; omega
    simp [hn, dropBytes?, fits, size, ih]

theorem takeBytes?_byteSize_append (p r : List Char) :
    takeBytes? (byteSize p) (p ++ r) = some p := by
  induction p with
  | nil => simp [takeBytes?]
  | cons c p ih =>
    have positive := c.utf8Size_pos
    obtain ⟨n, hn⟩ : ∃ n, byteSize (c :: p) = n + 1 := ⟨byteSize (c :: p) - 1, by simp; omega⟩
    have size : n + 1 - c.utf8Size = byteSize p := by simp at hn; omega
    have fits : c.utf8Size ≤ n + 1 := by simp at hn; omega
    simp [hn, takeBytes?, fits, size, ih]

theorem dropBytes?_eq_some_iff {n : Nat} {cs r : List Char} :
    dropBytes? n cs = some r ↔ ∃ p, cs = p ++ r ∧ byteSize p = n := by
  constructor
  · intro h
    induction cs generalizing n with
    | nil =>
      cases n with
      | zero => exact ⟨[], by simpa [dropBytes?] using h⟩
      | succ n => simp [dropBytes?] at h
    | cons c cs ih =>
      cases n with
      | zero => exact ⟨[], by simpa [dropBytes?] using h⟩
      | succ n =>
        simp only [dropBytes?] at h
        split at h
        next fits =>
          obtain ⟨p, rfl, size⟩ := ih h
          exact ⟨c :: p, rfl, by simp; omega⟩
        next => simp at h
  · rintro ⟨p, rfl, rfl⟩
    exact dropBytes?_byteSize_append p r

def slice? (start stop : Nat) (cs : List Char) : Option (List Char) :=
  if start ≤ stop then (dropBytes? start cs).bind (takeBytes? (stop - start)) else none

/-- Bytes `start` (included) to `stop` (excluded). The ends may be out of order. -/
structure ByteRange where
  start : Nat
  stop : Nat
  deriving DecidableEq, Repr

namespace ByteRange

def size (r : ByteRange) : Nat := r.stop - r.start

def isEmpty (r : ByteRange) : Bool := r.stop ≤ r.start

/-- The text in the range, both ends clipped to the text; empty where an end splits a character. -/
def slice (r : ByteRange) (cs : List Char) : List Char :=
  (slice? (min r.start (byteSize cs)) (min r.stop (byteSize cs)) cs).getD []

end ByteRange

end SparqlTokens.Text
