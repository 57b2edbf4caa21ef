import SparqlTokens.Proofs.Lexing.Progress

/-! Going on from a later place. Wherever a run over a text stands, as long as no error has ended
it, reading the rest of the text from its start gives the items that the run has still to give: what
was read before counts only for lines, columns and the text that errors quote. -/
namespace SparqlTokens

open Text

/-- The first item is the second, `bytes` further on. Their lines and columns, and the text that
errors quote, are not compared. -/
def Item.Further (bytes : ℕ) : Item → Item → Prop
  | token t, token u => t.kind = u.kind ∧ t.rule = u.rule ∧ t.lexeme = u.lexeme ∧
      t.range = ⟨u.range.start + bytes, u.range.stop + bytes⟩
  | error e, error f => e.kind = f.kind ∧ e.offset = f.offset + bytes
  | _, _ => False

/-- Passes over a text by byte offsets, from one place to another, and the items they hand out. None
of them ends the run. -/
inductive Table.Passes (t : Table) (settings : Settings) (text : List Char) :
    Place → List Item → Place → Prop
  | here {p} : Passes t settings text p [] p
  | pass {p i q items r} : p.offset < byteSize text →
      t.passAt? settings text p = some (i, q, false) → Passes t settings text q items r →
      Passes t settings text p (i.toList ++ items) r

theorem Table.passes_append {t : Table} {settings : Settings} {text : List Char} {p q r : Place}
    {items more : List Item} (h : t.Passes settings text p items q)
    (h' : t.Passes settings text q more r) : t.Passes settings text p (items ++ more) r := by
  induction h with
  | here => exact h'
  | pass hlt hpass _ ih =>
    rw [List.append_assoc]
    exact .pass hlt hpass (ih h')

namespace Scan

/-! The same text ahead -/

/-- Two scans with the same text ahead, the first `bytes` further on. -/
structure Resumes (bytes : ℕ) (s u : Scan) : Prop where
  table : s.table = u.table
  settings : s.settings = u.settings
  ahead : s.ahead = u.ahead
  done : s.done = u.done
  offset : s.place.offset = u.place.offset + bytes

section Resumes

variable {bytes : ℕ} {s u : Scan}

theorem resumes_advance (h : Resumes bytes s u) (n : ℕ) :
    Resumes bytes (s.advance n) (u.advance n) where
  table := h.table
  settings := h.settings
  ahead := by simp only [advance, h.ahead]
  done := h.done
  offset := by
    simp only [advance, Place.offset_advance, h.ahead, h.offset]
    omega

theorem resumes_skip (h : Resumes bytes s u) (f : Failure) :
    Resumes bytes (s.skip f) (u.skip f) := by
  have hstop : s.settings.stopOnFirstError = u.settings.stopOnFirstError := by rw [h.settings]
  unfold skip
  rw [hstop]
  split
  · exact ⟨h.table, h.settings, h.ahead, rfl, h.offset⟩
  · exact resumes_advance h _

theorem resumes_shown (h : Resumes bytes s u) (c : Cut) :
    List.Forall₂ (Item.Further bytes) (s.shown c).toList (u.shown c).toList := by
  unfold shown
  rw [h.settings]
  split
  · refine .cons ⟨rfl, rfl, rfl, ?_⟩ .nil
    simp only [placeToken, h.offset, Nat.add_right_comm]
  · exact .nil

theorem resumes_error (h : Resumes bytes s u) (f : Failure) :
    Item.Further bytes (.error (s.placeError f)) (.error (u.placeError f)) :=
  ⟨rfl, (resumes_advance h f.ahead).offset⟩

/-- What a run gives further on is what a run gives that has the same text ahead. -/
theorem resumes_simulation (bytes : ℕ) : Simulation (Resumes bytes) (Item.Further bytes) where
  ended h := by rw [Ended, Ended, h.done, h.ahead]
  cut h := by rw [h.table, h.settings, h.ahead]
  shown := resumes_shown
  error := resumes_error
  advance := resumes_advance
  skip := resumes_skip

end Resumes

/-! Passes -/

section Passes

variable {t : Table} {settings : Settings} {text : List Char} {s : Scan}

theorem running_pass (h : Running t settings text s) (hs : ¬ s.Ended)
    (hd : s.step.2.done = false) :
    t.Passes settings text s.place s.step.1.toList s.step.2.place := by
  obtain ⟨hdone, hahead⟩ := not_or.mp hs
  have hlt : s.place.offset < byteSize text := by
    have hsize := placed_size h.toPlaced
    have hpos := byteSize_pos hahead
    omega
  have hpass := placed_pass h hahead (Bool.eq_false_of_not_eq_true hdone)
  rw [hd] at hpass
  rw [← List.append_nil s.step.1.toList]
  exact .pass hlt hpass .here

/-- Passes by byte offsets are passes of the run, which goes on behind them. -/
theorem passes_running {p : Place} {items : List Item} (h : t.Passes settings text s.place items p)
    (hs : Running t settings text s) (hd : s.done = false) :
    ∃ u, Running t settings text u ∧ u.place = p ∧ u.done = false ∧
      s.drain.1 = items ++ u.drain.1 := by
  generalize hplace : s.place = start at h
  induction h generalizing s with
  | here => exact ⟨s, hs, hplace, hd, rfl⟩
  | pass hlt hpass _ ih =>
    subst hplace
    -- the place is before the end of the text, so the run has text ahead and makes the same pass
    have hsize := placed_size hs.toPlaced
    have hahead : s.ahead ≠ [] := by
      intro hnil
      rw [hnil, byteSize_nil] at hsize
      omega
    have hgoes : ¬ s.Ended := by simp [Ended, hd, hahead]
    have hstep := placed_pass hs hahead hd
    rw [hpass, Option.some.injEq, Prod.mk.injEq, Prod.mk.injEq] at hstep
    obtain ⟨hitem, hbehind, hdone⟩ := hstep
    obtain ⟨u, hu, hp, hud, hdrain⟩ := ih (running_step hs hgoes) hdone.symm hbehind.symm
    refine ⟨u, hu, hp, hud, ?_⟩
    rw [drain_step hgoes, hdrain, hitem, List.append_assoc]

/-- A pass that ends the run leaves the text ahead where it is. -/
theorem step_stops (hs : ¬ s.Ended) (hd : s.step.2.done = true) : s.step.2.ahead = s.ahead := by
  obtain ⟨hdone, hahead⟩ := not_or.mp hs
  rcases step_cases s hahead with ⟨c, _, _, he⟩ | ⟨f, _, _, he⟩
  · rw [he] at hd
    exact absurd hd hdone
  · rw [he] at hd ⊢
    unfold skip at hd ⊢
    split at hd
    · rw [if_pos ‹_›]
    · exact absurd hd hdone

/-- Wherever a run stands that no error has ended, passes have led there. -/
theorem visited_passes (h : Visited (ofText t settings text) s)
    (hd : s.done = true → s.ahead = []) :
    ∃ before, t.Passes settings text {} before s.place := by
  induction h with
  | start => exact ⟨[], .here⟩
  | @pass s hvisited hs ih =>
    obtain ⟨hdone, hahead⟩ := not_or.mp hs
    obtain ⟨before, hbefore⟩ := ih (absurd · hdone)
    -- a pass that ends the run leaves text ahead, which a run without an error does not
    have hgoes : s.step.2.done = false := by
      refine Bool.eq_false_of_not_eq_true fun hstop => hahead ?_
      rw [← step_stops hs hstop, hd hstop]
    exact ⟨_, Table.passes_append hbefore (running_pass (visited_running hvisited) hs hgoes)⟩
  | finish _ _ ih => exact ih fun _ => hd rfl
  | restart => exact ⟨[], .here⟩

end Passes

end Scan

open Scan in
/-- Runs have no memory. Wherever calls of `next` and `restart` lead, passes by byte offsets lead,
unless an error has ended the run short of the end of the text; and wherever these lead, reading the
rest of the text from its start gives what the run gives behind that place, nearer by the bytes
before it. -/
theorem runs_are_memoryless (t : Table) (settings : Settings) (text : List Char) :
    (∀ s, Visited (ofText t settings text) s → (s.done = true → s.ahead = []) →
      ∃ before, t.Passes settings text {} before s.place) ∧
    ∀ before p, t.Passes settings text {} before p → ∃ rest after,
      dropBytes? p.offset text = some rest ∧ t.items settings text = before ++ after ∧
      List.Forall₂ (Item.Further p.offset) after (t.items settings rest) := by
  refine ⟨fun _ => visited_passes, ?_⟩
  intro before p h
  obtain ⟨u, hu, hp, hd, hdrain⟩ := passes_running (s := ofText t settings text) h running_start rfl
  have hresumes : Resumes p.offset u (ofText t settings u.ahead) :=
    ⟨hu.table, hu.settings, rfl, hd, by rw [hp]; exact (Nat.zero_add _).symm⟩
  exact ⟨u.ahead, u.drain.1, hp ▸ placed_drop hu.toPlaced, hdrain,
    simulation_drain (resumes_simulation _) hresumes⟩

open Scan in
/-- A run goes on behind an error and a blank that it passes over, three bytes into the text. -/
theorem resumed_behind_blank :
    let text := ['é', ' ', '1', 'é', '2']
    let settings : Settings := { stopOnFirstError := false }
    ∃ t s before after, Table.build [⟨"INTEGER", "[0-9]+"⟩, ⟨"WHITESPACE", " +"⟩]
        ["INTEGER", "WHITESPACE"] = .ok t ∧
      Visited (ofText t settings text) s ∧ s.done = false ∧ s.place.offset = 3 ∧
      t.Passes settings text {} before s.place ∧ t.items settings text = before ++ after ∧
      List.Forall₂ (Item.Further 3) after (t.items settings ['1', 'é', '2']) := by
  intro text settings
  have hrun : (Table.build [⟨"INTEGER", "[0-9]+"⟩, ⟨"WHITESPACE", " +"⟩]
      ["INTEGER", "WHITESPACE"]).toOption.map (fun t =>
        let s := (ofText t settings text).step.2
        (s.done, s.ahead, s.step.2.done, s.step.2.place.offset)) =
      some (false, [' ', '1', 'é', '2'], false, 3) := by
    decide +kernel
  cases ht : Table.build [⟨"INTEGER", "[0-9]+"⟩, ⟨"WHITESPACE", " +"⟩]
      ["INTEGER", "WHITESPACE"] with
  | error e =>
    rw [ht] at hrun
    cases hrun
  | ok t =>
    rw [ht] at hrun
    injection hrun with hrun
    simp only [Prod.mk.injEq] at hrun
    obtain ⟨hdone, hahead, hgoes, hoffset⟩ := hrun
    have hvisited : Visited (ofText t settings text) (ofText t settings text).step.2.step.2 :=
      .pass (.pass .start (by simp [Ended, ofText, text])) (by simp [Ended, hdone, hahead])
    obtain ⟨hpassed, hresumed⟩ := runs_are_memoryless t settings text
    obtain ⟨before, hbefore⟩ := hpassed _ hvisited (by simp [hgoes])
    obtain ⟨rest, after, hrest, hitems, hafter⟩ := hresumed before _ hbefore
    rw [hoffset] at hrest hafter
    cases hrest
    exact ⟨t, _, before, after, rfl, hvisited, hgoes, hoffset, hbefore, hitems, hafter⟩

end SparqlTokens
