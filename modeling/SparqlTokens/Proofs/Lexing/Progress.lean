import SparqlTokens.Proofs.Lexing.Addressed
import SparqlTokens.Proofs.Lexing.Runs

/-! Every run moves on and ends, for any table, also one whose rules match nothing, or only away from
the place where they are tried, or make tokens of no kind. Each pass of the loop in `next` reads at
least one whole character or is the last, and all that is cut out of the text lies within it. -/
namespace SparqlTokens

open Text Table

namespace Scan

/-- The states before the passes that calls of `next` make, with calls of `restart` between them. -/
inductive Visited (start : Scan) : Scan → Prop
  | start : Visited start start
  | pass {s} : Visited start s → ¬ s.Ended → Visited start s.step.2
  | finish {s} : Visited start s → s.Ended → Visited start { s with done := true }
  | restart {s} : Visited start s → Visited start s.restart

theorem visited_next {start s : Scan} (h : Visited start s) : Visited start s.next.2 := by
  rcases next_cases (fun _ => .pass) h with ⟨u, hu, hend, he⟩ | ⟨u, i, hu, hgoes, _, he⟩
  · rw [he]
    exact .finish hu hend
  · rw [he]
    exact .pass hu hgoes

theorem reachable_visited {start s : Scan} (h : Reachable start s) : Visited start s := by
  induction h with
  | refl => exact .start
  | next _ ih => exact visited_next ih
  | restart _ ih => exact .restart ih

/-- `n` passes lead from a state to the answer `r` and to the state behind it. -/
inductive Returns : ℕ → Scan → Option Item × Scan → Prop
  | ended {s} : s.Ended → Returns 0 s (none, { s with done := true })
  | item {s i} : ¬ s.Ended → s.step.1 = some i → Returns 1 s (some i, s.step.2)
  | silent {n s r} : ¬ s.Ended → s.step.1 = none → Returns n s.step.2 r → Returns (n + 1) s r

/-- The state behind `n` calls of `next`. -/
def after : ℕ → Scan → Scan
  | 0, s => s
  | n + 1, s => after n s.next.2

section Loop

variable {s : Scan}

theorem next_of_ended (h : s.Ended) : s.next = (none, { s with done := true }) := by
  by_cases hd : s.done = true
  · rw [next, nextWith, if_pos hd]
    rw [← hd]
  · rw [next, nextWith, if_neg hd, if_pos (List.isEmpty_iff.mpr (h.resolve_left hd))]

theorem returns_unique {m n : ℕ} {r r' : Option Item × Scan} (h : Returns m s r)
    (h' : Returns n s r') : m = n ∧ r = r' := by
  induction h generalizing n r' with
  | ended he =>
    cases h' with
    | ended => exact ⟨rfl, rfl⟩
    | item hn => exact absurd he hn
    | silent hn => exact absurd he hn
  | item hn hi =>
    cases h' with
    | ended he => exact absurd he hn
    | item _ hj =>
      rw [hi] at hj
      cases hj
      exact ⟨rfl, rfl⟩
    | silent _ hj =>
      rw [hi] at hj
      cases hj
  | silent hn hi _ ih =>
    cases h' with
    | ended he => exact absurd he hn
    | item _ hj =>
      rw [hi] at hj
      cases hj
    | silent _ _ hr =>
      obtain ⟨rfl, hsame⟩ := ih hr
      exact ⟨rfl, hsame⟩

/-- The loop of `next` returns, after no more passes than there are characters ahead. -/
theorem next_returns (s : Scan) : ∃ n ≤ s.left, Returns n s s.next := by
  induction hn : s.left using Nat.strong_induction_on generalizing s with
  | h m ih =>
    by_cases hs : s.Ended
    · refine ⟨0, Nat.zero_le m, ?_⟩
      rw [next_of_ended hs]
      exact .ended hs
    · have hlt : s.step.2.left < m := hn ▸ left_step hs
      cases hi : s.step.1 with
      | some i =>
        refine ⟨1, by omega, ?_⟩
        rw [next_some hs hi]
        exact .item hs hi
      | none =>
        obtain ⟨n, hle, hr⟩ := ih _ hlt s.step.2 rfl
        refine ⟨n + 1, by omega, ?_⟩
        rw [next_silent hs hi]
        exact .silent hs hi hr

theorem drain_answer {i : Item} (h : s.next.1 = some i) :
    s.drain.1 = i :: s.next.2.drain.1 := by
  have hkept : ∀ u : Scan, u.left ≤ s.left → ¬ u.Ended → u.step.2.left ≤ s.left :=
    fun u hu hne => (left_step hne).le.trans hu
  have hle := left_le s
  rcases next_cases hkept le_rfl with ⟨u, _, _, he⟩ | ⟨u, j, hu, hne, _, he⟩
  · rw [he] at h
    cases h
  · have hlt : u.step.2.left < s.left := (left_step hne).trans_le hu
    have hrest : drainWith s.ahead.length u.step.2 = u.step.2.drain :=
      drainWith_bound (by omega) (Nat.lt_succ_of_le (left_le _))
    rw [he] at h
    cases h
    simp only [drain, drainWith, he] at hrest ⊢
    rw [hrest]

theorem next_answered (h : s.next.1 = none) : s.next.2.Ended := by
  rcases next_cases (P := fun _ => True) (fun _ _ _ => trivial) (s := s) trivial with
    ⟨u, _, _, he⟩ | ⟨u, i, _, _, _, he⟩
  · rw [he]
    exact Or.inl rfl
  · rw [he] at h
    cases h

/-- The calls of `next` answer with the items of the run, one after another, and then with
nothing. -/
theorem answers (n : ℕ) (s : Scan) : (after n s).next.1 = s.drain.1[n]? := by
  induction n generalizing s with
  | zero =>
    cases hi : s.next.1 with
    | none =>
      rw [drain, drainWith_none hi]
      exact hi
    | some i =>
      rw [drain_answer hi]
      exact hi
  | succ n ih =>
    rw [after, ih]
    cases hi : s.next.1 with
    | none => rw [drain_ended (next_answered hi), drain, drainWith_none hi]; rfl
    | some i => rw [drain_answer hi, List.getElem?_cons_succ]

theorem answers_end {m n : ℕ} (h : (after m s).next.1 = none) (hn : m ≤ n) :
    (after n s).next.1 = none := by
  rw [answers, List.getElem?_eq_none_iff] at h ⊢
  exact h.trans hn

theorem drain_length (s : Scan) : s.drain.1.length ≤ s.left := by
  induction s using run_induction with
  | ended s h =>
    rw [drain_ended h]
    exact Nat.zero_le _
  | token s c h hc ih =>
    have hlt : (s.advance c.lexeme.length).left < s.left := by
      simpa only [step_cut hc] using left_step h
    have hone : (s.shown c).toList.length ≤ 1 := by
      cases s.shown c with
      | none => exact Nat.zero_le 1
      | some i => exact le_rfl
    rw [drain_token h hc, List.length_append]
    omega
  | error s f h hc ih =>
    have hlt : (s.skip f).left < s.left := by
      simpa only [step_error hc] using left_step h
    rw [drain_error h hc, List.length_cons]
    omega

/-- A pass that does not end the run reads some characters. -/
theorem step_moves (hs : ¬ s.Ended) (hd : s.step.2.done = false) : ∃ c u,
    s.ahead = c :: u ++ s.step.2.ahead ∧ s.step.2.place = s.place.advance (c :: u) := by
  have moved : ∀ n, 0 < n → ∃ c u, s.ahead = c :: u ++ (s.advance n).ahead ∧
      (s.advance n).place = s.place.advance (c :: u) := by
    intro n hn
    obtain ⟨c, r, hcr⟩ := List.exists_cons_of_ne_nil (not_or.mp hs).2
    obtain ⟨m, rfl⟩ := Nat.exists_eq_succ_of_ne_zero hn.ne'
    refine ⟨c, r.take m, ?_, ?_⟩
    · simp only [advance, hcr, List.drop_succ_cons, List.cons_append, List.take_append_drop]
    · simp only [advance, hcr, List.take_succ_cons]
  rcases step_cases s (not_or.mp hs).2 with ⟨c, _, hc, he⟩ | ⟨f, _, _, he⟩
  · rw [he]
    exact moved _ (List.length_pos_of_ne_nil hc.1)
  · rw [he] at hd ⊢
    have hstop : ¬ s.settings.stopOnFirstError = true := by
      intro hstop
      have hdone : (s.skip f).done = true := by rw [skip, if_pos hstop]
      rw [hd] at hdone
      cases hdone
    have hskip : s.skip f = s.advance (f.ahead + 1) := if_neg hstop
    rw [hskip]
    exact moved _ (Nat.succ_pos _)

end Loop

/-- What holds in each state of a run over a text. All offsets are in bytes. -/
structure Progress (t : Table) (settings : Settings) (text : List Char) (s : Scan) : Prop where
  place : s.place.offset ≤ byteSize text ∧ dropBytes? s.place.offset text = some s.ahead
  candidates : ∀ c ∈ t.candidatesAt text s.place.offset, 0 < c.bytes ∧
    s.place.offset + c.bytes ≤ byteSize text ∧
    ∃ rest, dropBytes? (s.place.offset + c.bytes) text = some rest
  failures : s.ahead ≠ [] → ∀ f, t.cutAt? settings text s.place.offset = some (.error f) →
    s.place.offset ≤ failureAt text s.place.offset f ∧
    failureAt text s.place.offset f < byteSize text ∧
    ∃ rest, dropBytes? (failureAt text s.place.offset f) text = some rest
  /-- Nothing that a pass cuts out of the text is out of range. -/
  pass : ¬ s.Ended →
    t.passAt? settings text s.place = some (s.step.1, s.step.2.place, s.step.2.done)
  moves : ¬ s.Ended → s.step.2.done = false → ∃ c u,
    s.ahead = c :: u ++ s.step.2.ahead ∧ s.step.2.place = s.place.advance (c :: u)
  /-- The loop of `next` returns after at most one pass for each character ahead. -/
  returns : ∃ n ≤ s.ahead.length, ∀ m r, Returns m s r ↔ m = n ∧ r = s.next
  answers : ∀ n, (after n s).next.1 = s.drain.1[n]?
  ends : ∀ m n, (after m s).next.1 = none → m ≤ n → (after n s).next.1 = none
  items : s.drain.1.length ≤ s.ahead.length
  restart : s.restart = ofText t settings text

section Progress

variable {t : Table} {settings : Settings} {text : List Char} {s : Scan}

theorem visited_running (h : Visited (ofText t settings text) s) : Running t settings text s := by
  induction h with
  | start => exact running_start
  | pass _ hs ih => exact running_step ih hs
  | finish _ _ ih => exact running_done ih
  | restart _ ih => exact running_restart ih

theorem dropBytes?_within {n : ℕ} {cs r : List Char} (h : dropBytes? n cs = some r) :
    n + byteSize r = byteSize cs := by
  obtain ⟨p, rfl, rfl⟩ := dropBytes?_eq_some_iff.mp h
  exact (byteSize_append p r).symm

theorem running_progress (h : Running t settings text s) : Progress t settings text s where
  place := by
    have hdrop := placed_drop h.toPlaced
    have hsize := dropBytes?_within hdrop
    exact ⟨by omega, hdrop⟩
  candidates := by
    intro c hc
    rw [placed_candidates h.toPlaced] at hc
    obtain ⟨r, _, hr⟩ := mem_candidates hc
    obtain ⟨hne, rest, hrest⟩ := candidate?_cuts hr
    have hdrop : dropBytes? (s.place.offset + c.bytes) text = some rest :=
      placed_behind h.toPlaced hrest.symm
    have hsize := dropBytes?_within hdrop
    exact ⟨byteSize_pos hne, by omega, _, hdrop⟩
  failures := by
    intro ha f hf
    rw [placed_cut h.toPlaced, Option.some.injEq] at hf
    have hlt := cut_error_bound ha hf
    have hdrop := placed_behind h.toPlaced (List.take_append_drop f.ahead s.ahead).symm
    rw [← placed_failure h.toPlaced] at hdrop
    have hsize := dropBytes?_within hdrop
    have hne : s.ahead.drop f.ahead ≠ [] := by
      simpa [List.drop_eq_nil_iff] using hlt
    have hpos := byteSize_pos hne
    refine ⟨?_, by omega, _, hdrop⟩
    rw [failureAt]
    exact Nat.le_add_right _ _
  pass hs := by
    obtain ⟨hd, ha⟩ := not_or.mp hs
    exact placed_pass h ha (Bool.eq_false_of_not_eq_true hd)
  moves := step_moves
  returns := by
    obtain ⟨n, hn, hreturns⟩ := next_returns s
    refine ⟨n, hn.trans (left_le s), fun m r => ⟨fun hr => ?_, ?_⟩⟩
    · exact returns_unique hr hreturns
    · rintro ⟨rfl, rfl⟩
      exact hreturns
  answers n := Scan.answers n s
  ends _ _ := answers_end
  items := (drain_length s).trans (left_le s)
  restart := by rw [Scan.restart, h.table, h.settings, h.source]

end Progress

end Scan

open Scan in
/-- Whatever its table, its settings and its text, a run stays within the text and moves on. -/
theorem runs_progress (t : Table) (settings : Settings) (text : List Char) :
    (∀ s, Reachable (ofText t settings text) s → Visited (ofText t settings text) s) ∧
    (∀ s, Visited (ofText t settings text) s → Progress t settings text s) ∧
    (t.items settings text).length ≤ text.length :=
  ⟨fun _ => reachable_visited, fun _ h => running_progress (visited_running h),
    (running_progress running_start).items⟩

open Scan in
/-- A run under a table whose rule makes tokens of no kind, behind the first call of `next`. -/
theorem kindless_rule_progresses :
    let text := ['x', 'b']
    ∃ t, Table.build [⟨"X", "a)|(?:b"⟩] ["X"] = .ok t ∧
      Reachable (ofText t {} text) (ofText t {} text).next.2 ∧
      Progress t {} text (ofText t {} text).next.2 ∧ (t.items {} text).length ≤ 2 := by
  intro text
  have hbuilt : (Table.build [⟨"X", "a)|(?:b"⟩] ["X"]).toOption.isSome = true := by decide +kernel
  cases ht : Table.build [⟨"X", "a)|(?:b"⟩] ["X"] with
  | error e =>
    rw [ht] at hbuilt
    cases hbuilt
  | ok t =>
    have hreachable : Reachable (ofText t {} text) (ofText t {} text).next.2 := .next .refl
    obtain ⟨hvisited, hprogress, hlength⟩ := runs_progress t {} text
    exact ⟨t, rfl, hreachable, hprogress _ (hvisited _ hreachable), hlength⟩

/-- A rule may match away from the place where it is tried, and is a candidate with all up to there. -/
example : (Table.build [⟨"X", "a)|(?:b"⟩] ["X"]).toOption.map
    (fun t => (t.candidates ['x', 'b']).map Candidate.lexeme) = some [['x', 'b']] := by
  decide +kernel

end SparqlTokens
