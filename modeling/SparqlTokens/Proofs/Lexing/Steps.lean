import SparqlTokens.Lexing.Scan
import Mathlib.Data.List.Basic
import Mathlib.Order.Nat

/-! What one step of a scan can do, for any table of rules and any settings. A step that cuts a
token takes a non-empty start of the text ahead; a step that fails blames a character ahead. A call
of `next` is a number of silent steps and then at most one that gives an item. -/
namespace SparqlTokens

namespace Pattern

theorem matchFrom_le {b : Bool} {rs : List Residual} {text : List Char} {read n : ℕ}
    {found : Option ℕ} (hf : ∀ m, found = some m → m ≤ read)
    (h : matchFrom b rs read found text = some n) : n ≤ read + text.length := by
  induction text generalizing b rs read found with
  | nil =>
    simp only [matchFrom] at h
    split at h
    · cases h; simp
    · exact (hf n h).trans (by simp)
  | cons c text ih =>
    simp only [matchFrom] at h
    have hf' : ∀ m, (if (preferred (courses b (some c) rs)).2 then some read else found) = some m →
        m ≤ read := by
      intro m hm
      split at hm
      · cases hm; exact le_rfl
      · exact hf m hm
    split at h
    · exact (hf' n h).trans (by simp)
    · have := ih (fun m hm => (hf' m hm).trans (Nat.le_succ _)) h
      simp only [List.length_cons]; omega

theorem searchFrom_le {p : Pattern} {b : Bool} {text : List Char} {skipped n : ℕ}
    (h : searchFrom p b skipped text = some n) : n ≤ skipped + text.length := by
  induction text generalizing b skipped with
  | nil => exact matchFrom_le (by simp) h
  | cons c text ih =>
    simp only [searchFrom] at h
    split at h
    · next hm => cases h; exact matchFrom_le (by simp) hm
    · have := ih h
      simp only [List.length_cons]; omega

theorem find?_le {p : Pattern} {text : List Char} {n : ℕ} (h : p.find? text = some n) :
    n ≤ text.length := by
  unfold find? at h
  split at h
  · simpa using matchFrom_le (by simp) h
  · simpa using searchFrom_le h

end Pattern

namespace Table

/-- A lexeme that can be cut: not empty, and a start of the text. -/
def Cuts (lexeme rest : List Char) : Prop := lexeme ≠ [] ∧ lexeme <+: rest

theorem candidate?_cuts {t : Table} {rest : List Char} {r : Rule} {c : Candidate}
    (h : t.candidate? rest r = some c) : Cuts c.lexeme rest := by
  unfold candidate? at h
  split at h
  · cases h
  · cases h
  · next n hz hn =>
    split at h
    · cases h
    · cases h
      have hle : n ≤ rest.length := Pattern.find?_le hn
      have hpos : n ≠ 0 := hz
      refine ⟨?_, List.take_prefix n rest⟩
      intro he
      have hl := congrArg List.length he
      simp only [List.length_take, List.length_nil] at hl
      omega

end Table

theorem Candidate.longest?_mem {cs : List Candidate} {c : Candidate}
    (h : Candidate.longest? cs = some c) : c ∈ cs := by
  induction cs generalizing c with
  | nil => cases h
  | cons d cs ih =>
    simp only [longest?] at h
    split at h
    · cases h; exact List.mem_cons_self
    · next e he =>
      split at h
      · cases h; exact List.mem_cons_of_mem _ (ih he)
      · cases h; exact List.mem_cons_self

theorem Table.mem_candidates {t : Table} {rest : List Char} {c : Candidate}
    (h : c ∈ t.candidates rest) : ∃ r ∈ t.tokenRules, t.candidate? rest r = some c := by
  unfold candidates at h
  split at h
  · cases h
  · exact List.mem_filterMap.mp h

theorem Table.select?_cuts {t : Table} {keep : Rule → Bool} {rest : List Char} {c : Candidate}
    (h : t.select? keep rest = some c) : Cuts c.lexeme rest := by
  have hm := (List.mem_filter.mp (Candidate.longest?_mem h)).1
  obtain ⟨r, _, hr⟩ := mem_candidates hm
  exact candidate?_cuts hr

theorem Table.cut_ok {t : Table} {settings : Settings} {rest : List Char} {c : Cut}
    (h : t.cut settings rest = .ok c) : ∃ d, t.select? settings.admits rest = some d ∧
      c.rule = d.rule.name ∧ c.lexeme = d.lexeme := by
  unfold cut at h
  split at h
  · cases h
  · next d hd =>
    split at h
    · cases h
    · split at h
      · cases h; exact ⟨d, hd, rfl, rfl⟩
      · cases h

namespace Ending

theorem short_bound {q : Char} {text : List Char} {read k : ℕ}
    (h : short q read text = badEscape k) : k < read + text.length := by
  fun_induction short q read text with
  | case1 | case2 => cases h
  | case3 read c r hc ih => have := ih h; simp only [List.length_cons]; omega
  | case4 read c r hc => cases h; simp
  | case5 | case6 => cases h
  | case7 read c r _ _ _ _ ih => have := ih h; simp only [List.length_cons]; omega

theorem long_bound {q : Char} {text : List Char} {read k : ℕ}
    (h : long q read text = badEscape k) : k < read + text.length := by
  fun_induction long q read text with
  | case1 | case2 => cases h
  | case3 read c r hc ih => have := ih h; simp only [List.length_cons]; omega
  | case4 read c r hc => cases h; simp
  | case5 => cases h
  | case6 read c r _ _ _ ih => have := ih h; simp only [List.length_cons]; omega

end Ending

namespace Failure

theorem quoted_bound {rest : List Char} {f : Failure}
    (h : (quoted? rest).bind Ending.failure? = some f) : f.ahead < rest.length := by
  obtain ⟨e, he, hf⟩ := Option.bind_eq_some_iff.mp h
  cases rest with
  | nil => cases he
  | cons q r =>
    cases e with
    | closed => cases hf
    | unterminated => cases hf; simp
    | badEscape k =>
      cases hf
      simp only [quoted?] at he
      split at he
      · split at he
        · next ht =>
          have hb := Ending.long_bound (Option.some.inj he)
          have hl := congrArg List.length ht
          simp only [List.length_drop, List.length_take, List.length_cons, List.length_nil]
            at hb hl ⊢
          omega
        · have hb := Ending.short_bound (Option.some.inj he)
          simp only [List.length_cons]; omega
      · cases he

theorem unmatched_bound {rest : List Char} (h : rest ≠ []) :
    (unmatched rest).ahead < rest.length := by
  unfold unmatched
  split
  · next f hf => exact quoted_bound hf
  · exact List.length_pos_of_ne_nil h

theorem opening_bound {rule : String} {rest : List Char} {f : Failure}
    (h : ofOpening? rule rest = some f) : f.ahead < rest.length := by
  unfold ofOpening? at h
  split at h
  · exact quoted_bound h
  · split at h
    · split at h
      · cases h; simp
      · cases h
    · cases h

end Failure

theorem Table.cut_cuts {t : Table} {settings : Settings} {rest : List Char} {c : Cut}
    (h : t.cut settings rest = .ok c) : Cuts c.lexeme rest := by
  obtain ⟨d, hd, _, hl⟩ := cut_ok h
  rw [hl]
  exact select?_cuts hd

theorem Table.cut_error_bound {t : Table} {settings : Settings} {rest : List Char} {f : Failure}
    (hr : rest ≠ []) (h : t.cut settings rest = .error f) : f.ahead < rest.length := by
  unfold cut at h
  split at h
  · cases h; exact Failure.unmatched_bound hr
  · split at h
    · next g hg => cases h; exact Failure.opening_bound hg
    · split at h
      · cases h
      · cases h; exact List.length_pos_of_ne_nil hr

namespace Scan

/-- What is handed out of a token that was cut. -/
def shown (s : Scan) (c : Cut) : Option Item :=
  if s.settings.emitWhitespace || !c.kind.isTrivia then some (.token (s.placeToken c)) else none

/-- Where a scan goes on behind a failure. -/
def skip (s : Scan) (f : Failure) : Scan :=
  if s.settings.stopOnFirstError then { s with done := true } else s.advance (f.ahead + 1)

theorem step_cut {s : Scan} {c : Cut} (h : s.table.cut s.settings s.ahead = .ok c) :
    s.step = (s.shown c, s.advance c.lexeme.length) := by
  simp [step, shown, h]

theorem step_error {s : Scan} {f : Failure} (h : s.table.cut s.settings s.ahead = .error f) :
    s.step = (some (.error (s.placeError f)), s.skip f) := by
  simp [step, skip, h]

/-- Everything a step can do where there is text ahead. -/
theorem step_cases (s : Scan) (hs : s.ahead ≠ []) :
    (∃ c, s.table.cut s.settings s.ahead = .ok c ∧ Table.Cuts c.lexeme s.ahead ∧
      s.step = (s.shown c, s.advance c.lexeme.length)) ∨
    (∃ f, s.table.cut s.settings s.ahead = .error f ∧ f.ahead < s.ahead.length ∧
      s.step = (some (.error (s.placeError f)), s.skip f)) := by
  cases h : s.table.cut s.settings s.ahead with
  | ok c => exact Or.inl ⟨c, rfl, Table.cut_cuts h, step_cut h⟩
  | error f => exact Or.inr ⟨f, rfl, Table.cut_error_bound hs h, step_error h⟩

theorem silent_step {s : Scan} (hs : s.ahead ≠ []) (h : s.step.1 = none) :
    s.step.2.ahead.length < s.ahead.length := by
  rcases step_cases s hs with ⟨c, _, ⟨hc, hp⟩, he⟩ | ⟨f, _, _, he⟩
  · rw [he]
    have hpos := List.length_pos_of_ne_nil hc
    have hlen := List.length_pos_of_ne_nil hs
    simp only [advance, List.length_drop]
    omega
  · rw [he] at h; cases h

/-- A scan that has nothing left to do. -/
def Ended (s : Scan) : Prop := s.done = true ∨ s.ahead = []

theorem nextWith_succ {s : Scan} (hs : ¬ s.Ended) (bound : ℕ) : nextWith (bound + 1) s =
    match s.step with
    | (some item, s) => (some item, s)
    | (none, s) => nextWith bound s := by
  obtain ⟨hd, ha⟩ := not_or.mp hs
  simp only [nextWith, hd, List.isEmpty_iff, ha]
  rfl

theorem nextWith_some {s : Scan} {i : Item} (hs : ¬ s.Ended) (hi : s.step.1 = some i)
    (bound : ℕ) : nextWith (bound + 1) s = (some i, s.step.2) := by
  have he : s.step = (some i, s.step.2) := Prod.ext hi rfl
  rw [nextWith_succ hs, he]

theorem next_some {s : Scan} {i : Item} (hs : ¬ s.Ended) (hi : s.step.1 = some i) :
    s.next = (some i, s.step.2) := nextWith_some hs hi _

theorem nextWith_none {s : Scan} (hs : ¬ s.Ended) (hi : s.step.1 = none) (bound : ℕ) :
    nextWith (bound + 1) s = nextWith bound s.step.2 := by
  have he : s.step = (none, s.step.2) := Prod.ext hi rfl
  rw [nextWith_succ hs, he]

/-- A call of `next` ends the scan without an item, or takes one last step that gives an item. The
steps before it are silent, so they keep what every step keeps. -/
theorem nextWith_cases {P : Scan → Prop} (hP : ∀ s, P s → ¬ s.Ended → P s.step.2)
    {bound : ℕ} {s : Scan} (hb : s.ahead.length < bound) (hs : P s) :
    (∃ u, P u ∧ u.Ended ∧ nextWith bound s = (none, { u with done := true })) ∨
    (∃ u i, P u ∧ ¬ u.Ended ∧ u.step.1 = some i ∧ nextWith bound s = (some i, u.step.2)) := by
  induction bound generalizing s with
  | zero => omega
  | succ bound ih =>
    by_cases hd : s.done = true
    · refine Or.inl ⟨s, hs, Or.inl hd, ?_⟩
      simp only [nextWith, hd, if_true]
      rw [← hd]
    by_cases ha : s.ahead = []
    · exact Or.inl ⟨s, hs, Or.inr ha, by simp [nextWith, hd, ha]⟩
    have hne : ¬ s.Ended := fun h => h.elim hd ha
    cases hi : s.step.1 with
    | some i => exact Or.inr ⟨s, i, hs, hne, hi, nextWith_some hne hi bound⟩
    | none =>
      have hlt := silent_step ha hi
      rw [nextWith_none hne hi]
      exact ih (by omega) (hP s hs hne)

theorem next_cases {P : Scan → Prop} (hP : ∀ s, P s → ¬ s.Ended → P s.step.2) {s : Scan}
    (hs : P s) :
    (∃ u, P u ∧ u.Ended ∧ s.next = (none, { u with done := true })) ∨
    (∃ u i, P u ∧ ¬ u.Ended ∧ u.step.1 = some i ∧ s.next = (some i, u.step.2)) :=
  nextWith_cases hP (Nat.lt_succ_self _) hs

/-- The states that calls of `next` and `restart` lead to, in any order. -/
inductive Reachable (start : Scan) : Scan → Prop
  | refl : Reachable start start
  | next {s} : Reachable start s → Reachable start s.next.2
  | restart {s} : Reachable start s → Reachable start s.restart

/-- The items that calls of `next` hand out, with calls of `restart` between them. -/
def Emits (start : Scan) (i : Item) : Prop := ∃ s, Reachable start s ∧ s.next.1 = some i

theorem emits_first {s : Scan} {i : Item} (hs : ¬ s.Ended) (hi : s.step.1 = some i) :
    Emits s i := by
  refine ⟨s, .refl, ?_⟩
  rw [next_some hs hi]

/-- What holds at the start and is kept by steps, by ending and by starting over holds in every
reachable state. -/
theorem reachable_invariant {P : Scan → Prop} {start s : Scan} (h₀ : P start)
    (hstep : ∀ s, P s → ¬ s.Ended → P s.step.2) (hdone : ∀ s, P s → P { s with done := true })
    (hrestart : ∀ s, P s → P s.restart) (h : Reachable start s) : P s := by
  induction h with
  | refl => exact h₀
  | @next s _ ih =>
    rcases next_cases hstep ih with ⟨u, hu, _, he⟩ | ⟨u, i, hu, hne, _, he⟩
    · rw [he]; exact hdone u hu
    · rw [he]; exact hstep u hu hne
  | restart _ ih => exact hrestart _ ih

theorem emitted_from_step {P : Scan → Prop} {start : Scan} {i : Item} (h₀ : P start)
    (hstep : ∀ s, P s → ¬ s.Ended → P s.step.2) (hdone : ∀ s, P s → P { s with done := true })
    (hrestart : ∀ s, P s → P s.restart) (h : Emits start i) :
    ∃ u, P u ∧ ¬ u.Ended ∧ u.step.1 = some i := by
  obtain ⟨s, hs, hi⟩ := h
  rcases next_cases hstep (reachable_invariant h₀ hstep hdone hrestart hs) with
    ⟨u, _, _, he⟩ | ⟨u, j, hu, hne, hj, he⟩
  · rw [he] at hi; cases hi
  · rw [he] at hi
    exact ⟨u, hu, hne, hj.trans hi⟩

theorem drainWith_reachable {start : Scan} (bound : ℕ) {s : Scan} (h : Reachable start s) :
    Reachable start (drainWith bound s).2 ∧ ∀ i ∈ (drainWith bound s).1, Emits start i := by
  induction bound generalizing s with
  | zero => exact ⟨h, fun i hi => by cases hi⟩
  | succ bound ih =>
    rcases hn : s.next with ⟨item, u⟩
    have hu : Reachable start u := by
      have := Reachable.next h
      rwa [hn] at this
    cases item with
    | none =>
      simp only [drainWith, hn]
      exact ⟨hu, fun i hi => by cases hi⟩
    | some item =>
      simp only [drainWith, hn]
      refine ⟨(ih hu).1, ?_⟩
      intro i hi
      rcases List.mem_cons.mp hi with rfl | hi
      · exact ⟨s, h, by rw [hn]⟩
      · exact (ih hu).2 i hi

theorem items_emitted {t : Table} {settings : Settings} {text : List Char} {i : Item}
    (h : i ∈ t.items settings text) : Emits (ofText t settings text) i :=
  (drainWith_reachable _ .refl).2 i h

end Scan

end SparqlTokens
