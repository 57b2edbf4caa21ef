import Mathlib.Data.List.Forall2
import SparqlTokens.Proofs.Lexing.Steps

/-! What a whole run hands out, step by step, for any table of rules and any settings: nothing where
it has ended, and else the item of a step, if there is one, before what the run hands out behind it.
`next` and `drain` count on bounds to end; here a run is as long as its text. -/
namespace SparqlTokens

namespace Scan

/-- The characters that steps may still take. -/
def left (s : Scan) : ℕ := if s.done then 0 else s.ahead.length

theorem left_step {s : Scan} (h : ¬ s.Ended) : s.step.2.left < s.left := by
  obtain ⟨hd, ha⟩ := not_or.mp h
  have hleft : s.left = s.ahead.length := if_neg hd
  have hpos := List.length_pos_of_ne_nil ha
  have advanced : ∀ n, (s.advance (n + 1)).left < s.left := by
    intro n
    have hnot : ¬ (s.advance (n + 1)).done = true := hd
    rw [left, if_neg hnot, hleft]
    simp only [advance, List.length_drop]
    omega
  rcases step_cases s ha with ⟨c, _, hc, he⟩ | ⟨f, _, _, he⟩
  · obtain ⟨n, hn⟩ := Nat.exists_eq_succ_of_ne_zero (List.length_pos_of_ne_nil hc.1).ne'
    rw [he, hn]
    exact advanced n
  · rw [he, skip]
    split
    · have hzero : ({ s with done := true } : Scan).left = 0 := rfl
      rw [hzero, hleft]
      exact hpos
    · exact advanced f.ahead

/-- What holds where a run has ended, and before a token or an error if it holds behind it, holds
everywhere. -/
theorem run_induction {P : Scan → Prop} (ended : ∀ s, s.Ended → P s)
    (token : ∀ s c, ¬ s.Ended → s.table.cut s.settings s.ahead = .ok c →
      P (s.advance c.lexeme.length) → P s)
    (error : ∀ s f, ¬ s.Ended → s.table.cut s.settings s.ahead = .error f → P (s.skip f) → P s)
    (s : Scan) : P s := by
  induction hn : s.left using Nat.strong_induction_on generalizing s with
  | h n ih =>
    by_cases hs : s.Ended
    · exact ended s hs
    · have hbehind : P s.step.2 := ih _ (hn ▸ left_step hs) _ rfl
      cases hc : s.table.cut s.settings s.ahead with
      | ok c =>
        rw [step_cut hc] at hbehind
        exact token s c hs hc hbehind
      | error f =>
        rw [step_error hc] at hbehind
        exact error s f hs hc hbehind

/-- A bound that is large enough makes no difference. -/
theorem nextWith_bound {s : Scan} {m n : ℕ} (hm : s.left < m) (hn : s.left < n) :
    nextWith m s = nextWith n s := by
  induction m generalizing s n with
  | zero => omega
  | succ m ih =>
    obtain ⟨n, rfl⟩ := Nat.exists_eq_succ_of_ne_zero (Nat.ne_zero_of_lt hn)
    by_cases hs : s.Ended
    · simp only [nextWith]
      split
      · rfl
      · next hd =>
        have he : s.ahead.isEmpty = true := List.isEmpty_iff.mpr (hs.resolve_left hd)
        rw [if_pos he, if_pos he]
    · cases hi : s.step.1 with
      | some i => rw [nextWith_some hs hi, nextWith_some hs hi]
      | none =>
        have hlt := left_step hs
        rw [nextWith_none hs hi, nextWith_none hs hi]
        exact ih (by omega) (by omega)

theorem left_le (s : Scan) : s.left ≤ s.ahead.length := by
  unfold left
  split
  · exact Nat.zero_le _
  · exact le_rfl

theorem next_silent {s : Scan} (hs : ¬ s.Ended) (hi : s.step.1 = none) :
    s.next = s.step.2.next := by
  have hlt := left_step hs
  have hle := left_le s
  rw [next, nextWith_none hs hi, next]
  exact nextWith_bound (by omega) (Nat.lt_succ_of_le (left_le _))

theorem next_ended {s : Scan} (h : s.Ended) : s.next.1 = none := by
  rw [next, nextWith]
  split
  · rfl
  · next hd => rw [if_pos (List.isEmpty_iff.mpr (h.resolve_left hd))]

theorem drainWith_bound {s : Scan} {m n : ℕ} (hm : s.left < m) (hn : s.left < n) :
    drainWith m s = drainWith n s := by
  induction m generalizing s n with
  | zero => omega
  | succ m ih =>
    obtain ⟨n, rfl⟩ := Nat.exists_eq_succ_of_ne_zero (Nat.ne_zero_of_lt hn)
    have hkept : ∀ u : Scan, u.left ≤ s.left → ¬ u.Ended → u.step.2.left ≤ s.left :=
      fun u hu hne => (left_step hne).le.trans hu
    rcases next_cases hkept le_rfl with ⟨u, _, _, he⟩ | ⟨u, i, hu, hne, _, he⟩
    · simp only [drainWith, he]
    · have hlt : u.step.2.left < s.left := (left_step hne).trans_le hu
      simp only [drainWith, he]
      rw [ih (n := n) (by omega) (by omega)]

theorem drainWith_none {s : Scan} (h : s.next.1 = none) (bound : ℕ) :
    (drainWith bound s).1 = [] := by
  cases bound with
  | zero => rfl
  | succ bound =>
    have he : s.next = (none, s.next.2) := Prod.ext h rfl
    rw [drainWith, he]

theorem drain_ended {s : Scan} (h : s.Ended) : s.drain.1 = [] :=
  drainWith_none (next_ended h) _

/-- A run hands out the item of its next step, if there is one, and then what the rest of the run
does. -/
theorem drain_step {s : Scan} (h : ¬ s.Ended) :
    s.drain.1 = s.step.1.toList ++ s.step.2.drain.1 := by
  have hlt := left_step h
  have hle := left_le s
  cases hi : s.step.1 with
  | none =>
    have hrest : s.drain.1 = (drainWith (s.ahead.length + 1) s.step.2).1 := by
      simp only [drain, drainWith, next_silent h hi]
    rw [hrest, drain, drainWith_bound (n := s.step.2.ahead.length + 1) (by omega)
      (Nat.lt_succ_of_le (left_le _))]
    rfl
  | some i =>
    have hrest : s.drain.1 = i :: (drainWith s.ahead.length s.step.2).1 := by
      simp only [drain, drainWith, next_some h hi]
    rw [hrest, drain, drainWith_bound (n := s.step.2.ahead.length + 1) (by omega)
      (Nat.lt_succ_of_le (left_le _))]
    rfl

theorem drain_token {s : Scan} {c : Cut} (h : ¬ s.Ended)
    (hc : s.table.cut s.settings s.ahead = .ok c) :
    s.drain.1 = (s.shown c).toList ++ (s.advance c.lexeme.length).drain.1 := by
  rw [drain_step h, step_cut hc]

theorem drain_error {s : Scan} {f : Failure} (h : ¬ s.Ended)
    (hf : s.table.cut s.settings s.ahead = .error f) :
    s.drain.1 = .error (s.placeError f) :: (s.skip f).drain.1 := by
  rw [drain_step h, step_error hf]
  rfl

/-! Two runs side by side -/

/-- A relation between scans that cut the same, which goes on behind whatever they cut, with the
items that they hand out related in turn. -/
structure Simulation (R : Scan → Scan → Prop) (I : Item → Item → Prop) : Prop where
  ended {s u} : R s u → (s.Ended ↔ u.Ended)
  cut {s u} : R s u → s.table.cut s.settings s.ahead = u.table.cut u.settings u.ahead
  shown {s u} : R s u → ∀ c, List.Forall₂ I (s.shown c).toList (u.shown c).toList
  error {s u} : R s u → ∀ f, I (.error (s.placeError f)) (.error (u.placeError f))
  advance {s u} : R s u → ∀ n, R (s.advance n) (u.advance n)
  skip {s u} : R s u → ∀ f, R (s.skip f) (u.skip f)

theorem simulation_drain {R : Scan → Scan → Prop} {I : Item → Item → Prop} (h : Simulation R I)
    {s u : Scan} (hsu : R s u) : List.Forall₂ I s.drain.1 u.drain.1 := by
  induction s using run_induction generalizing u with
  | ended s hs =>
    rw [drain_ended hs, drain_ended ((h.ended hsu).mp hs)]
    exact .nil
  | token s c hs hc ih =>
    have hu : ¬ u.Ended := mt (h.ended hsu).mpr hs
    rw [drain_token hs hc, drain_token hu ((h.cut hsu).symm.trans hc)]
    exact List.rel_append (h.shown hsu c) (ih (h.advance hsu _))
  | error s f hs hc ih =>
    have hu : ¬ u.Ended := mt (h.ended hsu).mpr hs
    rw [drain_error hs hc, drain_error hu ((h.cut hsu).symm.trans hc)]
    exact .cons (h.error hsu f) (ih (h.skip hsu f))

end Scan

namespace Table

variable {t u : Table}

theorem simulation_cut (h : t.cut = u.cut) :
    Scan.Simulation (fun s s' => s.table = t ∧ s' = { s with table := u }) Eq where
  ended := by
    rintro s _ ⟨_, rfl⟩
    rfl
  cut := by
    rintro s _ ⟨rfl, rfl⟩
    rw [h]
  shown := by
    rintro s _ ⟨_, rfl⟩ c
    exact List.forall₂_refl _
  error := by
    rintro s _ ⟨_, rfl⟩ f
    rfl
  advance := by
    rintro s _ ⟨ht, rfl⟩ n
    exact ⟨ht, rfl⟩
  skip := by
    rintro s _ ⟨ht, rfl⟩ f
    unfold Scan.skip
    split
    · exact ⟨ht, rfl⟩
    · exact ⟨ht, rfl⟩

/-- Tables that cut the same read every text the same. -/
theorem items_cut (h : t.cut = u.cut) (settings : Settings) (text : List Char) :
    t.items settings text = u.items settings text := by
  have hstart : (Scan.ofText t settings text).table = t ∧
      Scan.ofText u settings text = { Scan.ofText t settings text with table := u } := ⟨rfl, rfl⟩
  have hdrain := Scan.simulation_drain (simulation_cut h) hstart
  rwa [List.forall₂_eq_eq_eq] at hdrain

theorem items_error {t : Table} {settings : Settings} {text : List Char} {f : Failure}
    (hne : text ≠ []) (h : t.cut settings text = .error f) :
    ∃ e rest, t.items settings text = .error e :: rest ∧ e.kind = f.kind ∧
      e.offset = Text.byteSize (text.take f.ahead) := by
  let s := Scan.ofText t settings text
  have hs : ¬ s.Ended := not_or.mpr ⟨Bool.false_ne_true, hne⟩
  refine ⟨s.placeError f, (s.skip f).drain.1, Scan.drain_error hs h, rfl, ?_⟩
  exact (Text.Place.offset_advance {} _).trans (Nat.zero_add _)

end Table

end SparqlTokens
