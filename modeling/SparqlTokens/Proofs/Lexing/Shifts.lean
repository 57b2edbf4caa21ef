import SparqlTokens.Proofs.Lexing.Runs
import SparqlTokens.Proofs.Text.Lines

/-! Runs that begin behind other lines. What a scan hands out depends on the text before it only
through its place, and the piece of text that an error quotes stays within its line. So behind
whole lines a run is the same, further on by their bytes and lines. -/
namespace SparqlTokens

namespace Text.Place

/-- A place further on by some bytes and lines, in the same column. -/
def shift (bytes lines : ℕ) (p : Place) : Place where
  offset := p.offset + bytes
  line := p.line + lines
  column := p.column

variable {bytes lines : ℕ}

theorem shift_step (p : Place) (c : Char) :
    (p.shift bytes lines).step c = (p.step c).shift bytes lines := by
  unfold step
  split
  · simp only [shift, Nat.add_right_comm]
  · simp only [shift, Nat.add_right_comm]

theorem shift_advance (p : Place) (cs : List Char) :
    (p.shift bytes lines).advance cs = (p.advance cs).shift bytes lines := by
  induction cs generalizing p with
  | nil => rfl
  | cons c cs ih => rw [advance_cons, advance_cons, shift_step, ih]

end Text.Place

/-- An item further on by some bytes and lines, in the same column. -/
def Item.shift (bytes lines : ℕ) : Item → Item
  | token t => token { t with
      range := ⟨t.range.start + bytes, t.range.stop + bytes⟩
      start := ⟨t.start.line + lines, t.start.column⟩ }
  | error e => error { e with offset := e.offset + bytes, line := e.line + lines }

/-- The piece of text that an error quotes begins behind the last line feed. -/
theorem LexicalError.window_behind (radius : ℕ) (passed before rest : List Char) :
    window radius (passed ++ '\n' :: before) rest = window radius passed rest := by
  have hline : (passed ++ '\n' :: before).takeWhile (· ≠ '\n') = passed.takeWhile (· ≠ '\n') := by
    induction passed with
    | nil => rfl
    | cons c passed ih => rw [List.cons_append, List.takeWhile_cons, ih, List.takeWhile_cons]
  rw [window, window, hline]

namespace Scan

theorem advance_advance (s : Scan) (m n : ℕ) : (s.advance m).advance n = s.advance (m + n) := by
  simp only [advance, List.take_add, Text.Place.advance_append, List.reverse_append,
    List.append_assoc, List.drop_drop]

def followed (s : Scan) (more : List Char) : Scan := { s with ahead := s.ahead ++ more }

theorem followed_advance {s : Scan} {n : ℕ} (h : n ≤ s.ahead.length) (more : List Char) :
    (s.followed more).advance n = (s.advance n).followed more := by
  simp only [advance, followed, List.take_append_of_le_length h, List.drop_append_of_le_length h]

/-- The same scan behind more lines: `before` and a line feed, of which `bytes` and `lines` are the
size and the number of lines. -/
def behind (bytes lines : ℕ) (before : List Char) (s : Scan) : Scan :=
  { s with place := s.place.shift bytes lines, passed := s.passed ++ '\n' :: before }

variable {bytes lines : ℕ} {before : List Char}

theorem behind_advance (s : Scan) (n : ℕ) : (s.behind bytes lines before).advance n =
    (s.advance n).behind bytes lines before := by
  simp only [advance, behind, Text.Place.shift_advance, List.append_assoc]

theorem behind_shown (s : Scan) (c : Cut) : (s.behind bytes lines before).shown c =
    (s.shown c).map (Item.shift bytes lines) := by
  have hplace : (s.behind bytes lines before).placeToken c =
      { s.placeToken c with
        range := ⟨(s.placeToken c).range.start + bytes, (s.placeToken c).range.stop + bytes⟩
        start := ⟨(s.placeToken c).start.line + lines, (s.placeToken c).start.column⟩ } := by
    simp only [placeToken, behind, Text.Place.shift, Text.Place.position, Nat.add_right_comm]
  rw [shown, shown, hplace, apply_ite (Option.map (Item.shift bytes lines))]
  rfl

theorem behind_error (s : Scan) (f : Failure) :
    Item.error ((s.behind bytes lines before).placeError f) =
      (Item.error (s.placeError f)).shift bytes lines := by
  simp only [placeError, behind_advance, Item.shift]
  congr 2
  exact congrArg String.ofList (LexicalError.window_behind _ _ _ _)

theorem behind_skip (s : Scan) (f : Failure) :
    (s.behind bytes lines before).skip f = (s.skip f).behind bytes lines before := by
  by_cases hstop : s.settings.stopOnFirstError = true
  · have hbehind : (s.behind bytes lines before).settings.stopOnFirstError = true := hstop
    rw [skip, skip, if_pos hstop, if_pos hbehind]
    rfl
  · have hbehind : ¬ (s.behind bytes lines before).settings.stopOnFirstError = true := hstop
    rw [skip, skip, if_neg hstop, if_neg hbehind, behind_advance]

/-- Behind other lines a run hands out the same items, further on. -/
theorem behind_drain (s : Scan) : (s.behind bytes lines before).drain.1 =
    s.drain.1.map (Item.shift bytes lines) := by
  induction s using run_induction with
  | ended s h =>
    have hbehind : (s.behind bytes lines before).Ended := h
    rw [drain_ended h, drain_ended hbehind]
    rfl
  | token s c h hc ih =>
    have hbehind : ¬ (s.behind bytes lines before).Ended := h
    rw [drain_token h hc, drain_token hbehind hc, behind_shown, behind_advance, ih, List.map_append,
      Option.toList_map]
  | error s f h hc ih =>
    have hbehind : ¬ (s.behind bytes lines before).Ended := h
    rw [drain_error h hc, drain_error hbehind hc, behind_error, behind_skip, ih, List.map_cons]

/-- A scan that has read a text and a line feed is one of the rest, behind that text. -/
theorem followed_line (t : Table) (settings : Settings) (a b : List Char) :
    ((ofText t settings a).followed ('\n' :: b)).advance (a.length + 1) =
      (ofText t settings b).behind (Text.byteSize a + 1) (a.count '\n' + 1) a.reverse := by
  have htake : (a ++ '\n' :: b).take (a.length + 1) = a ++ ['\n'] := by
    rw [List.take_append, List.take_of_length_le (Nat.le_succ _), Nat.add_sub_cancel_left]
    rfl
  have hdrop : (a ++ '\n' :: b).drop (a.length + 1) = b := by
    rw [List.drop_append, List.drop_of_length_le (Nat.le_succ _), Nat.add_sub_cancel_left]
    rfl
  have hplace : Text.Place.advance {} (a ++ ['\n']) =
      Text.Place.shift (Text.byteSize a + 1) (a.count '\n' + 1) {} := by
    rw [Text.advance_counts, Text.counted, Text.lastLine_concat]
    simp [Text.Place.shift, Text.lineFeed_size, Nat.add_comm]
  simp only [advance, followed, ofText, behind, htake, hdrop, hplace, List.reverse_append,
    List.append_nil, List.nil_append]
  rfl

end Scan

end SparqlTokens
