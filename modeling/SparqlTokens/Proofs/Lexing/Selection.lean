import Mathlib.Data.List.Find
import SparqlTokens.Proofs.Lexing.Steps

/-! The choice among candidates: none is longer than the one chosen, and it is the first of its
length. -/
namespace SparqlTokens

theorem Table.candidate?_iff {t : Table} {rest : List Char} {r : Rule} {c : Candidate} :
    t.candidate? rest r = some c ↔ ∃ n, r.leadingLength? rest = some n ∧ n ≠ 0 ∧
      ¬ (r.name = "BooleanLiteral" ∧ t.continuesName (rest.drop n) = true) ∧
      c = ⟨r, rest.take n⟩ := by
  unfold candidate?
  split
  · next h => simp [h]
  · next h => simp [h]
  · next n hz h =>
    have hn : n ≠ 0 := hz
    simp only [h, Option.some.injEq, exists_eq_left', hn, ne_eq, not_false_eq_true, true_and]
    split
    · next hleft =>
      have hleft : r.name = "BooleanLiteral" ∧ t.continuesName (rest.drop n) = true := by
        simpa using hleft
      simp [hleft]
    · next hright =>
      have hright : ¬ (r.name = "BooleanLiteral" ∧ t.continuesName (rest.drop n) = true) := by
        simpa using hright
      simp only [hright, not_false_eq_true, true_and, Option.some.injEq]
      exact eq_comm

namespace Candidate

theorem longest?_none {cs : List Candidate} : longest? cs = none ↔ cs = [] := by
  constructor
  · intro h
    cases cs with
    | nil => rfl
    | cons c cs =>
      unfold longest? at h
      split at h
      · cases h
      · split at h <;> cases h
  · rintro rfl
    rfl

theorem longest?_max {cs : List Candidate} {c : Candidate} (h : longest? cs = some c) :
    ∀ d ∈ cs, d.lexeme.length ≤ c.lexeme.length := by
  induction cs generalizing c with
  | nil => cases h
  | cons a cs ih =>
    intro d hd
    unfold longest? at h
    split at h
    · next hnone =>
      cases h
      have hcs : cs = [] := longest?_none.mp hnone
      subst hcs
      rw [List.mem_singleton.mp hd]
    · next b hb =>
      have hmax := ih hb
      split at h
      · next hlt =>
        cases h
        rcases List.mem_cons.mp hd with rfl | hd
        · exact hlt.le
        · exact hmax d hd
      · next hlt =>
        cases h
        rcases List.mem_cons.mp hd with rfl | hd
        · exact le_rfl
        · exact (hmax d hd).trans (not_lt.mp hlt)

theorem longest?_first {cs : List Candidate} {c : Candidate} (h : longest? cs = some c) :
    cs.find? (fun d => d.lexeme.length = c.lexeme.length) = some c := by
  induction cs generalizing c with
  | nil => cases h
  | cons a cs ih =>
    unfold longest? at h
    split at h
    · cases h
      exact List.find?_cons_of_pos (by simp)
    · next b hb =>
      split at h
      · next hlt =>
        cases h
        rw [List.find?_cons_of_neg (by simpa using hlt.ne)]
        exact ih hb
      · cases h
        exact List.find?_cons_of_pos (by simp)

/-- The choice stays what it is if others are left out. -/
theorem longest?_filter {cs : List Candidate} {p : Candidate → Bool} {c : Candidate}
    (h : longest? cs = some c) (hp : p c = true) : longest? (cs.filter p) = some c := by
  induction cs generalizing c with
  | nil => cases h
  | cons a cs ih =>
    rw [longest?] at h
    cases hb : longest? cs with
    | none =>
      rw [hb] at h
      cases h
      rw [longest?_none.mp hb, List.filter_cons_of_pos hp]
      rfl
    | some b =>
      rw [hb] at h
      by_cases hlt : a.lexeme.length < b.lexeme.length
      · -- `a` is not chosen, whether it is left out or not
        simp only [if_pos hlt, Option.some.injEq] at h
        subst h
        by_cases ha : p a = true
        · rw [List.filter_cons_of_pos ha, longest?, ih hb hp]
          exact if_pos hlt
        · rw [List.filter_cons_of_neg ha, ih hb hp]
      · simp only [if_neg hlt, Option.some.injEq] at h
        subst h
        rw [List.filter_cons_of_pos hp, longest?]
        cases hd : longest? (cs.filter p) with
        | none => rfl
        | some d =>
          have hle := longest?_max hb d (List.mem_filter.mp (longest?_mem hd)).1
          have hnot : ¬ a.lexeme.length < d.lexeme.length := by omega
          exact if_neg hnot

end Candidate

namespace Table

variable {t : Table} {keep : Rule → Bool} {rest : List Char}

theorem candidates_eq : t.candidates rest = t.tokenRules.filterMap (t.candidate? rest) := by
  cases rest with
  | cons => rfl
  | nil =>
    symm
    apply List.filterMap_eq_nil_iff.mpr
    intro r _
    cases h : t.candidate? [] r with
    | none => rfl
    | some c => exact absurd (List.prefix_nil.mp (candidate?_cuts h).2) (candidate?_cuts h).1

theorem mem_kept {c : Candidate} : c ∈ (t.candidates rest).filter (fun c => keep c.rule) ↔
    ∃ r ∈ t.tokenRules, keep r = true ∧ t.candidate? rest r = some c := by
  rw [List.mem_filter, candidates_eq, List.mem_filterMap]
  constructor
  · rintro ⟨⟨r, hr, hc⟩, hk⟩
    obtain ⟨n, _, _, _, rfl⟩ := candidate?_iff.mp hc
    exact ⟨r, hr, hk, hc⟩
  · rintro ⟨r, hr, hk, hc⟩
    refine ⟨⟨r, hr, hc⟩, ?_⟩
    obtain ⟨n, _, _, _, rfl⟩ := candidate?_iff.mp hc
    exact hk

theorem select?_candidate {c : Candidate} (h : t.select? keep rest = some c) :
    ∃ r ∈ t.tokenRules, keep r = true ∧ t.candidate? rest r = some c :=
  mem_kept.mp (Candidate.longest?_mem h)

theorem select?_max {c : Candidate} (h : t.select? keep rest = some c) {r : Rule}
    (hr : r ∈ t.tokenRules) (hk : keep r = true) {d : Candidate}
    (hd : t.candidate? rest r = some d) : d.lexeme.length ≤ c.lexeme.length :=
  Candidate.longest?_max h d (mem_kept.mpr ⟨r, hr, hk, hd⟩)

theorem select?_none (h : t.select? keep rest = none) {r : Rule} (hr : r ∈ t.tokenRules)
    (hk : keep r = true) : t.candidate? rest r = none := by
  have hnil := Candidate.longest?_none.mp h
  cases hd : t.candidate? rest r with
  | none => rfl
  | some d =>
    have hmem : d ∈ (t.candidates rest).filter (fun c => keep c.rule) :=
      mem_kept.mpr ⟨r, hr, hk, hd⟩
    rw [hnil] at hmem
    cases hmem

/-- The rule chosen is the first whose candidate has the length of the one chosen. -/
theorem select?_first {c : Candidate} (h : t.select? keep rest = some c) :
    ∃ r, t.tokenRules.find? (fun r => (t.candidate? rest r).any fun d =>
        keep d.rule && decide (d.lexeme.length = c.lexeme.length)) = some r ∧
      t.candidate? rest r = some c := by
  have hfirst := Candidate.longest?_first h
  rw [List.find?_filter, candidates_eq, List.find?_filterMap, Option.bind_eq_some_iff] at hfirst
  simpa using hfirst

/-! Fewer rules -/

section Fewer

variable {fewer : Rule → Bool} (hfewer : ∀ r, fewer r = true → keep r = true)
include hfewer

theorem kept_fewer : (t.candidates rest).filter (fun c => fewer c.rule) =
    ((t.candidates rest).filter fun c => keep c.rule).filter fun c => fewer c.rule := by
  rw [List.filter_filter]
  apply List.filter_congr
  intro c _
  by_cases h : fewer c.rule = true
  · rw [h, hfewer c.rule h, Bool.and_true]
  · rw [Bool.not_eq_true] at h
    rw [h, Bool.false_and]

theorem select?_fewer {c : Candidate} (h : t.select? keep rest = some c)
    (hc : fewer c.rule = true) : t.select? fewer rest = some c := by
  rw [select?, kept_fewer hfewer]
  exact Candidate.longest?_filter h hc

theorem select?_fewer_none (h : t.select? keep rest = none) : t.select? fewer rest = none := by
  rw [select?, kept_fewer hfewer, Candidate.longest?_none.mp h]
  rfl

end Fewer

/-- What is cut depends on the settings only through the choice. -/
theorem cut_chosen {settings other : Settings}
    (h : t.select? settings.admits rest = t.select? other.admits rest) :
    t.cut settings rest = t.cut other rest := by
  rw [cut, cut, h]

end Table

end SparqlTokens
