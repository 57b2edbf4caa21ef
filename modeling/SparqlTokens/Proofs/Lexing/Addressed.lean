import SparqlTokens.Proofs.Lexing.Positions
import SparqlTokens.Proofs.Lexing.Selection

/-! Reading by byte offsets. The same pass over a text as a scan makes, with every piece of text cut
out of the whole by its offsets: it fails where an offset lies outside the text or inside a
character. For no table does that happen, and the pass is the step of the scan. -/
namespace SparqlTokens

open Text

namespace Text

/-- Up to `radius` characters to either side of an offset in its line. -/
def windowAt? (radius : ℕ) (text : List Char) (offset : ℕ) : Option (List Char) := do
  let offset := min offset (byteSize text)
  let before ← takeBytes? offset text
  let rest ← dropBytes? offset text
  let start := byteSize (upToLastLine before)
  let stop := offset + byteSize (rest.takeWhile fun c => c ≠ '\n' && c ≠ '\r')
  let line ← slice? start stop text
  let column := (← slice? start offset text).length
  return (line.drop (column - radius)).take (column + radius - (column - radius))

/-- Between two characters, the window is that of the text before and the text behind. -/
theorem windowAt?_between (radius : ℕ) (p r : List Char) :
    windowAt? radius (p ++ r) (byteSize p) =
      some (LexicalError.window radius p.reverse r) := by
  obtain ⟨tail, htail⟩ : ∃ tail, (r.takeWhile fun c => c ≠ '\n' && c ≠ '\r') = tail := ⟨_, rfl⟩
  have hmin : min (byteSize p) (byteSize (p ++ r)) = byteSize p := by
    rw [byteSize_append]
    omega
  have hsplit := upToLastLine_append_lastLine p
  have hsize : byteSize p = byteSize (upToLastLine p) + byteSize (lastLine p) := by
    rw [← byteSize_append, hsplit]
  obtain ⟨v, hv⟩ : ∃ v, tail ++ v = r := htail ▸ ⟨_, List.takeWhile_append_dropWhile⟩
  have hline : slice? (byteSize (upToLastLine p)) (byteSize p + byteSize tail) (p ++ r) =
      some (lastLine p ++ tail) := by
    have hcut := slice?_between (upToLastLine p) (lastLine p ++ tail) v
    rw [byteSize_append, ← Nat.add_assoc, ← hsize, List.append_assoc (lastLine p), hv,
      ← List.append_assoc, hsplit] at hcut
    exact hcut
  simp only [windowAt?, hmin, takeBytes?_byteSize_append, dropBytes?_byteSize_append, htail, hline,
    slice?_lastLine, Option.bind_eq_bind, Option.bind_some, LexicalError.window]
  rfl

end Text

namespace Table

/-- The text from a byte offset on, or nothing where there is none. -/
def restAt (text : List Char) (offset : ℕ) : List Char := (dropBytes? offset text).getD []

/-- The token at a byte offset, its lexeme cut out of the text. -/
def cutAt? (t : Table) (settings : Settings) (text : List Char) (offset : ℕ) :
    Option (Except Failure Cut) :=
  match t.selectAt? settings.admits text offset with
  | none => some (.error (Failure.unmatched (restAt text offset)))
  | some c => match Failure.ofOpening? c.rule.name (restAt text offset) with
    | some f => some (.error f)
    | none => (slice? offset (offset + c.bytes) text).map fun lexeme =>
      match Kind.ofRule? c.rule.name (String.ofList lexeme) with
      | some kind => .ok { kind, rule := c.rule.name, lexeme }
      | none => .error { kind := .noMatch }

/-- The byte offset of the cause of a failure. -/
def failureAt (text : List Char) (offset : ℕ) (f : Failure) : ℕ :=
  offset + byteSize ((restAt text offset).take f.ahead)

/-- The error of a failure, its place found by moving over the text before its cause. -/
def errorAt? (radius : ℕ) (text : List Char) (p : Place) (f : Failure) : Option LexicalError := do
  let offset := failureAt text p.offset f
  let there := p.advance (← slice? p.offset offset text)
  let snippet ← windowAt? radius text offset
  return { kind := f.kind, offset, line := there.line, column := there.column,
           snippet := String.ofList snippet }

/-- The place behind the character at a byte offset, if that is not before the place. -/
def skipAt? (text : List Char) (p : Place) (offset : ℕ) : Option Place := do
  let start := max p.offset offset
  let c ← (← dropBytes? start text).head?
  let skipped ← slice? p.offset (min (start + c.utf8Size) (byteSize text)) text
  return p.advance skipped

/-- One pass from a place of a text: what it hands out, where it leads, and whether it ends the
run. -/
def passAt? (t : Table) (settings : Settings) (text : List Char) (p : Place) :
    Option (Option Item × Place × Bool) := do
  match ← t.cutAt? settings text p.offset with
  | .ok c =>
    let token : Token :=
      { kind := c.kind, rule := c.rule, lexeme := String.ofList c.lexeme,
        range := ⟨p.offset, p.offset + byteSize c.lexeme⟩, start := p.position }
    let shown := settings.emitWhitespace || !c.kind.isTrivia
    return (if shown then some (.token token) else none, p.advance c.lexeme, false)
  | .error f =>
    let e ← errorAt? settings.snippetRadius text p f
    if settings.stopOnFirstError then return (some (.error e), p, true)
    return (some (.error e), ← skipAt? text p e.offset, false)

end Table

namespace Scan

open Table

variable {t : Table} {settings : Settings} {text : List Char} {s : Scan}

theorem placed_size (h : Placed text s) : byteSize text = s.place.offset + byteSize s.ahead := by
  rw [placed_offset h, ← byteSize_append, ← placed_text h]

theorem placed_rest (h : Placed text s) : restAt text s.place.offset = s.ahead := by
  rw [restAt, placed_drop h]
  rfl

theorem placed_candidates (h : Placed text s) :
    t.candidatesAt text s.place.offset = t.candidates s.ahead := by
  rw [candidatesAt, placed_drop h]

theorem placed_failure (h : Placed text s) (f : Failure) :
    failureAt text s.place.offset f = s.place.offset + byteSize (s.ahead.take f.ahead) := by
  rw [failureAt, placed_rest h]

theorem placed_cut (h : Placed text s) :
    t.cutAt? settings text s.place.offset = some (t.cut settings s.ahead) := by
  have hselect : t.selectAt? settings.admits text s.place.offset =
      t.select? settings.admits s.ahead := by
    rw [selectAt?, selectWhere?, select?, placed_candidates h]
  rw [cutAt?, hselect, placed_rest h, cut]
  cases hs : t.select? settings.admits s.ahead with
  | none => rfl
  | some c =>
    cases ho : Failure.ofOpening? c.rule.name s.ahead with
    | some f => simp only [ho]
    | none =>
      have hlexeme := placed_slice h (select?_cuts hs).2
      simp only [ho, Candidate.bytes, hlexeme]
      rfl

theorem placed_error (h : Placed text s) (f : Failure) :
    errorAt? s.settings.snippetRadius text s.place f = some (s.placeError f) := by
  have hthere := placed_advance h f.ahead
  have hslice := placed_slice h (List.take_prefix f.ahead s.ahead)
  have hwindow : windowAt? s.settings.snippetRadius text
      (s.place.offset + byteSize (s.ahead.take f.ahead)) = some (LexicalError.window
        s.settings.snippetRadius (s.advance f.ahead).passed (s.advance f.ahead).ahead) := by
    have hat := windowAt?_between s.settings.snippetRadius (s.advance f.ahead).passed.reverse
      (s.advance f.ahead).ahead
    rw [← placed_text hthere, ← placed_offset hthere, List.reverse_reverse] at hat
    rw [← hat]
    exact congrArg _ (Place.offset_advance s.place _).symm
  simp only [errorAt?, placed_failure h, hslice, hwindow, Option.bind_eq_bind, Option.bind_some]
  simp only [placeError, advance, Place.offset_advance]
  rfl

theorem placed_skip (h : Placed text s) {f : Failure} (hf : f.ahead < s.ahead.length) :
    skipAt? text s.place (s.placeError f).offset = some (s.advance (f.ahead + 1)).place := by
  have hthere := placed_advance h f.ahead
  have hoffset : (s.placeError f).offset = (s.advance f.ahead).place.offset := rfl
  have hle : s.place.offset ≤ (s.advance f.ahead).place.offset := by
    simp only [advance, Place.offset_advance]
    omega
  have hahead : (s.advance f.ahead).ahead = s.ahead[f.ahead] :: s.ahead.drop (f.ahead + 1) :=
    List.drop_eq_getElem_cons hf
  have htake : s.ahead.take (f.ahead + 1) = s.ahead.take f.ahead ++ [s.ahead[f.ahead]] :=
    List.take_succ_eq_append_getElem hf
  have hstop : (s.advance f.ahead).place.offset + (s.ahead[f.ahead]).utf8Size =
      s.place.offset + byteSize (s.ahead.take (f.ahead + 1)) := by
    rw [htake, byteSize_append, byteSize_cons, byteSize_nil]
    simp only [advance, Place.offset_advance]
    omega
  have hend : s.place.offset + byteSize (s.ahead.take (f.ahead + 1)) ≤ byteSize text := by
    rw [placed_size h]
    exact Nat.add_le_add_left (byteSize_mono (List.take_prefix _ _)) _
  have hslice := placed_slice h (List.take_prefix (f.ahead + 1) s.ahead)
  simp only [skipAt?, hoffset, max_eq_right hle, placed_drop hthere, hahead, List.head?_cons, hstop,
    min_eq_left hend, hslice, Option.bind_eq_bind, Option.bind_some]
  rfl

/-- A pass by byte offsets from the place of a scan is the step of the scan. -/
theorem placed_pass (h : Running t settings text s) (ha : s.ahead ≠ []) (hd : s.done = false) :
    t.passAt? settings text s.place = some (s.step.1, s.step.2.place, s.step.2.done) := by
  rw [passAt?, placed_cut h.toPlaced, ← h.table, ← h.settings]
  rcases step_cases s ha with ⟨c, hc, hcuts, he⟩ | ⟨f, hf, hlt, he⟩
  · obtain ⟨r, hr⟩ := hcuts.2
    have hplace : (s.advance c.lexeme.length).place = s.place.advance c.lexeme := by
      simp only [advance, ← hr, List.take_left]
    have hdone : (s.advance c.lexeme.length).done = false := hd
    rw [he, hc, hplace, hdone]
    rfl
  · rw [he, hf]
    simp only [Option.bind_eq_bind, Option.bind_some, placed_error h.toPlaced, skip]
    split
    · rfl
    · rw [placed_skip h.toPlaced hlt]
      have hdone : (s.advance (f.ahead + 1)).done = false := hd
      rw [hdone]
      rfl

end Scan

end SparqlTokens
