import Mathlib.Algebra.Group.Nat.Defs
import SparqlTokens.Proofs.Lexing.Steps
import SparqlTokens.Proofs.Text.Lines

/-! The place of a scan agrees with the index of line starts in every state that calls of `next`
and `restart` lead to, and so do the places of tokens and errors. Nothing is assumed of the table:
a step moves the place over whole characters, whatever its rules match. -/
namespace SparqlTokens

open Text

namespace Scan

/-- A scan of `text` whose place is where moving over the text read leads. -/
structure Placed (text : List Char) (s : Scan) : Prop where
  source : s.source = text
  place : s.place = Place.advance {} s.passed.reverse

theorem placed_start (t : Table) (settings : Settings) (text : List Char) :
    Placed text (ofText t settings text) := ⟨rfl, rfl⟩

theorem advance_source (s : Scan) (n : ℕ) : (s.advance n).source = s.source := by
  simp [source, advance]

theorem placed_advance {text : List Char} {s : Scan} (h : Placed text s) (n : ℕ) :
    Placed text (s.advance n) := by
  refine ⟨(advance_source s n).trans h.source, ?_⟩
  simp only [advance, List.reverse_append, List.reverse_reverse, Place.advance_append]
  rw [h.place]

theorem placed_done {text : List Char} {s : Scan} (h : Placed text s) :
    Placed text { s with done := true } := ⟨h.source, h.place⟩

theorem placed_restart {text : List Char} {s : Scan} (h : Placed text s) :
    Placed text s.restart := by
  refine ⟨?_, rfl⟩
  rw [← h.source]
  rfl

theorem placed_step {text : List Char} {s : Scan} (h : Placed text s) (hs : ¬ s.Ended) :
    Placed text s.step.2 := by
  rcases step_cases s (fun e => hs (Or.inr e)) with ⟨c, _, _, he⟩ | ⟨f, _, _, he⟩
  · rw [he]; exact placed_advance h _
  · rw [he, skip]
    split
    · exact placed_done h
    · exact placed_advance h _

theorem step_keeps (s : Scan) : s.step.2.table = s.table ∧ s.step.2.settings = s.settings := by
  cases hc : s.table.cut s.settings s.ahead with
  | ok c =>
    rw [step_cut hc]
    exact ⟨rfl, rfl⟩
  | error f =>
    rw [step_error hc, skip]
    split
    · exact ⟨rfl, rfl⟩
    · exact ⟨rfl, rfl⟩

/-- A placed scan with the table and the settings it was started with. -/
structure Running (t : Table) (settings : Settings) (text : List Char) (s : Scan) : Prop
    extends Placed text s where
  table : s.table = t
  settings : s.settings = settings

section Running

variable {t : Table} {settings : Settings} {text : List Char} {s : Scan}

theorem running_start : Running t settings text (ofText t settings text) :=
  ⟨placed_start t settings text, rfl, rfl⟩

theorem running_step (h : Running t settings text s) (hs : ¬ s.Ended) :
    Running t settings text s.step.2 :=
  ⟨placed_step h.toPlaced hs, (step_keeps s).1.trans h.table, (step_keeps s).2.trans h.settings⟩

theorem running_done (h : Running t settings text s) :
    Running t settings text { s with done := true } :=
  ⟨placed_done h.toPlaced, h.table, h.settings⟩

theorem running_restart (h : Running t settings text s) : Running t settings text s.restart :=
  ⟨placed_restart h.toPlaced, h.table, h.settings⟩

theorem running_reachable (h : Reachable (ofText t settings text) s) : Running t settings text s :=
  reachable_invariant running_start (fun _ => running_step) (fun _ => running_done)
    (fun _ => running_restart) h

theorem emitted_running {i : Item} (h : Emits (ofText t settings text) i) :
    ∃ u, Running t settings text u ∧ ¬ u.Ended ∧ u.step.1 = some i :=
  emitted_from_step running_start (fun _ => running_step) (fun _ => running_done)
    (fun _ => running_restart) h

theorem placed_reachable (h : Reachable (ofText t settings text) s) : Placed text s :=
  (running_reachable h).toPlaced

theorem emitted_placed {i : Item} (h : Emits (ofText t settings text) i) :
    ∃ u, Placed text u ∧ u.step.1 = some i := by
  obtain ⟨u, hu, _, hi⟩ := emitted_running h
  exact ⟨u, hu.toPlaced, hi⟩

end Running

theorem placed_text {text : List Char} {s : Scan} (h : Placed text s) :
    text = s.passed.reverse ++ s.ahead := h.source.symm

theorem placed_offset {text : List Char} {s : Scan} (h : Placed text s) :
    s.place.offset = byteSize s.passed.reverse := by
  rw [h.place, Place.offset_advance, Nat.zero_add]

theorem placed_behind {text : List Char} {s : Scan} (h : Placed text s) {u r : List Char}
    (hu : s.ahead = u ++ r) : dropBytes? (s.place.offset + byteSize u) text = some r := by
  rw [placed_offset h, ← byteSize_append]
  conv_lhs => rw [placed_text h, hu, ← List.append_assoc]
  exact dropBytes?_byteSize_append _ _

theorem placed_drop {text : List Char} {s : Scan} (h : Placed text s) :
    dropBytes? s.place.offset text = some s.ahead := placed_behind h (List.nil_append _).symm

theorem placed_slice {text : List Char} {s : Scan} (h : Placed text s) {u : List Char}
    (hu : u <+: s.ahead) : slice? s.place.offset (s.place.offset + byteSize u) text = some u := by
  obtain ⟨r, hr⟩ := hu
  rw [placed_offset h]
  conv_lhs => rw [placed_text h, ← hr]
  exact slice?_between s.passed.reverse u r

theorem placed_position {text : List Char} {s : Scan} (h : Placed text s) :
    s.place.position = (LineStarts.ofText text).position text s.place.offset := by
  rw [placed_offset h, placed_text h, LineStarts.position_advance, ← h.place]

/-- A position whose line and column are numbers of 32 bits. -/
def Fits (p : Position) : Prop := p.line < 2 ^ 32 ∧ p.column < 2 ^ 32

theorem placed_fits {text : List Char} {s : Scan} (h : Placed text s)
    (hl : text.length < 2 ^ 32 - 1) : Fits s.place.position := by
  have hp : s.place.position = counted s.passed.reverse := by
    rw [h.place, advance_counts]; rfl
  have hb := counted_bound s.passed.reverse
  have hlen : s.passed.reverse.length ≤ text.length := by
    rw [placed_text h, List.length_append]; omega
  rw [hp, Fits]
  omega

theorem step_token {s : Scan} {t : Token} (h : s.step.1 = some (.token t)) :
    ∃ c, s.table.cut s.settings s.ahead = .ok c ∧ t = s.placeToken c := by
  cases hc : s.table.cut s.settings s.ahead with
  | ok c =>
    rw [step_cut hc, shown] at h
    split at h
    · cases h; exact ⟨c, rfl, rfl⟩
    · cases h
  | error f => rw [step_error hc] at h; cases h

theorem step_failure {s : Scan} {e : LexicalError} (h : s.step.1 = some (.error e)) :
    ∃ f, s.table.cut s.settings s.ahead = .error f ∧ e = s.placeError f := by
  cases hc : s.table.cut s.settings s.ahead with
  | ok c =>
    rw [step_cut hc, shown] at h
    split at h <;> cases h
  | error f => rw [step_error hc] at h; cases h; exact ⟨f, rfl, rfl⟩

end Scan

open Scan in
/-- The place of a scan and the index of line starts never drift apart: not in any state that calls
of `next` and `restart` lead to, nor at the start of a token, nor at the cause of an error, which
may lie ahead of the scan. Lines and columns stay numbers of 32 bits. -/
theorem positions_never_drift (t : Table) (settings : Settings) (text : List Char)
    (hl : text.length < 2 ^ 32 - 1) :
    (∀ s, Reachable (ofText t settings text) s →
      s.place.position = (LineStarts.ofText text).position text s.place.offset ∧
      Fits s.place.position) ∧
    (∀ token, Emits (ofText t settings text) (.token token) →
      token.start = (LineStarts.ofText text).position text token.range.start ∧
      Fits token.start) ∧
    (∀ e, Emits (ofText t settings text) (.error e) →
      ⟨e.line, e.column⟩ = (LineStarts.ofText text).position text e.offset ∧
      Fits ⟨e.line, e.column⟩) := by
  refine ⟨?_, ?_, ?_⟩
  · intro s hs
    have hp := placed_reachable hs
    exact ⟨placed_position hp, placed_fits hp hl⟩
  · intro token h
    obtain ⟨u, hu, hi⟩ := emitted_placed h
    obtain ⟨c, _, rfl⟩ := step_token hi
    exact ⟨placed_position hu, placed_fits hu hl⟩
  · intro e h
    obtain ⟨u, hu, hi⟩ := emitted_placed h
    obtain ⟨f, _, rfl⟩ := step_failure hi
    have there := placed_advance hu f.ahead
    exact ⟨placed_position there, placed_fits there hl⟩

open Scan in
/-- A bad escape in the second line, two characters ahead of the scan that reports it. -/
theorem position_of_bad_escape :
    let text := ['\n', '"', 'a', '\\', 'q']
    let settings : Settings := { stopOnFirstError := false }
    text.length < 2 ^ 32 - 1 ∧ ∃ e : LexicalError,
      Emits (ofText .empty settings text) (.error e) ∧ e.kind = .invalidEscape ∧ e.offset = 3 ∧
      (⟨2, 3⟩ : Position) = (LineStarts.ofText text).position text 3 := by
  intro text settings
  have hl : text.length < 2 ^ 32 - 1 := by decide
  have he : Emits (ofText .empty settings text)
      (.error ⟨.invalidEscape, 3, 2, 3, String.ofList ['"', 'a', '\\', 'q']⟩) :=
    ⟨_, .next .refl, rfl⟩
  exact ⟨hl, _, he, rfl, rfl, ((positions_never_drift .empty settings text hl).2.2 _ he).1⟩

end SparqlTokens
