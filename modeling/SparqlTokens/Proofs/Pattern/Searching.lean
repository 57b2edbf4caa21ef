import SparqlTokens.Proofs.Pattern.Matching

/-! What a search finds, for any pattern, tied to the start of the text or not. There is a match if
and only if the pattern reads some part of the text, and the end of the match found is that of such
a part. A reading stays one when the text is cut off behind it: anchors hold no less where less is
left. -/
namespace SparqlTokens

open Reading

namespace Pattern

theorem rounds_starts {R : Reading} (h : ∀ {b w rest}, R b w rest → b = true) {n : ℕ} (hn : n ≠ 0)
    {b : Bool} {w rest : List Char} (hw : R.rounds n b w rest) : b = true := by
  obtain ⟨n, rfl⟩ := Nat.exists_eq_succ_of_ne_zero hn
  obtain ⟨u, v, _, hu, _⟩ := hw
  exact h hu

/-- What is tied to the start of the text reads nothing elsewhere. -/
theorem reading_starts {p : Pattern} (hs : p.startsAtTextStart = true) {b : Bool}
    {w rest : List Char} (h : p.reading b w rest) : b = true := by
  induction p generalizing b w rest with
  | textStart => exact h.2
  | cat p q hp _ =>
    obtain ⟨u, v, _, hu, _⟩ := h
    exact hp hs hu
  | either _ p q hp hq =>
    obtain ⟨hsp, hsq⟩ := Bool.and_eq_true_iff.mp hs
    rcases h with h | h
    · exact hp hsp h
    · exact hq hsq h
  | times n p hp =>
    obtain ⟨hn, hsp⟩ := Bool.and_eq_true_iff.mp hs
    exact rounds_starts (hp hsp) (of_decide_eq_true hn) h
  | empty | set | textEnd | again | upTo => cases hs

/-- The end of a part of the text that the pattern reads, behind some characters. -/
theorem searchFrom_sound {p : Pattern} {b : Bool} {skipped n : ℕ} {text : List Char}
    (h : searchFrom p b skipped text = some n) : ∃ s w rest, text = s ++ (w ++ rest) ∧
      n = skipped + (s ++ w).length ∧ p.reading (b && s.isEmpty) w rest := by
  have here : ∀ {b : Bool} {skipped n : ℕ} {text : List Char},
      matchFrom b [[p]] skipped none text = some n → ∃ s w rest, text = s ++ (w ++ rest) ∧
        n = skipped + (s ++ w).length ∧ p.reading (b && s.isEmpty) w rest := by
    intro b skipped n text hm
    rcases matchFrom_sound hm with hf | ⟨w, rest, rfl, rfl, hw⟩
    · cases hf
    · exact ⟨[], w, rest, rfl, rfl, by simpa using reads_pattern.mp hw⟩
  induction text generalizing b skipped with
  | nil => exact here h
  | cons c text ih =>
    unfold searchFrom at h
    split at h
    · next hm =>
      cases h
      exact here hm
    · obtain ⟨s, w, rest, rfl, rfl, hw⟩ := ih h
      refine ⟨c :: s, w, rest, rfl, ?_, by simpa using hw⟩
      simp only [List.cons_append, List.length_cons]
      omega

theorem searchFrom_complete {p : Pattern} {b : Bool} {skipped : ℕ} {s w rest : List Char}
    (h : p.reading (b && s.isEmpty) w rest) :
    (searchFrom p b skipped (s ++ (w ++ rest))).isSome = true := by
  induction s generalizing b skipped with
  | nil =>
    have hreads : Reads b [[p]] w rest := reads_pattern.mpr (by simpa using h)
    have hm : (matchFrom b [[p]] skipped none (w ++ rest)).isSome = true :=
      matchFrom_complete hreads
    rw [List.nil_append]
    cases htext : w ++ rest with
    | nil =>
      rw [htext] at hm
      exact hm
    | cons c text =>
      rw [htext] at hm
      obtain ⟨n, hn⟩ := Option.isSome_iff_exists.mp hm
      simp only [searchFrom, hn]
      rfl
  | cons c s ih =>
    rw [List.cons_append, searchFrom]
    split
    · rfl
    · exact ih (by simpa using h)

theorem find?_sound {p : Pattern} {text : List Char} {n : ℕ} (h : p.find? text = some n) :
    ∃ s w rest, text = s ++ (w ++ rest) ∧ n = (s ++ w).length ∧ p.reading s.isEmpty w rest := by
  unfold find? at h
  split at h
  · rcases matchFrom_sound h with hf | ⟨w, rest, rfl, rfl, hw⟩
    · cases hf
    · exact ⟨[], w, rest, rfl, Nat.zero_add _, reads_pattern.mp hw⟩
  · obtain ⟨s, w, rest, htext, rfl, hw⟩ := searchFrom_sound h
    exact ⟨s, w, rest, htext, Nat.zero_add _, by simpa using hw⟩

theorem find?_complete {p : Pattern} {s w rest : List Char} (h : p.reading s.isEmpty w rest) :
    (p.find? (s ++ (w ++ rest))).isSome = true := by
  unfold find?
  split
  · next hs =>
    have hempty : s = [] := List.isEmpty_iff.mp (reading_starts hs h)
    subst hempty
    have hreads : Reads true [[p]] w rest := reads_pattern.mpr h
    rw [List.nil_append]
    exact matchFrom_complete hreads
  · exact searchFrom_complete (by simpa using h)

theorem find?_isSome {p : Pattern} {text : List Char} : (p.find? text).isSome = true ↔
    ∃ s w rest, text = s ++ (w ++ rest) ∧ p.reading s.isEmpty w rest := by
  constructor
  · intro h
    obtain ⟨n, hn⟩ := Option.isSome_iff_exists.mp h
    obtain ⟨s, w, rest, htext, _, hw⟩ := find?_sound hn
    exact ⟨s, w, rest, htext, hw⟩
  · rintro ⟨s, w, rest, rfl, hw⟩
    exact find?_complete hw

end Pattern

/-! Less text behind -/

namespace Reading

/-- What is read before some text is read before each start of it too. -/
def Shrinks (R : Reading) : Prop :=
  ∀ {b : Bool} {w more rest : List Char}, R b w (more ++ rest) → R b w more

variable {R S : Reading}

theorem Shrinks.andThen (hR : R.Shrinks) (hS : S.Shrinks) : (R.andThen S).Shrinks := by
  rintro b _ more rest ⟨u, v, rfl, hu, hv⟩
  rw [← List.append_assoc] at hu
  exact ⟨u, v, rfl, hR hu, hS hv⟩

theorem Shrinks.orElse (hR : R.Shrinks) (hS : S.Shrinks) : (R.orElse S).Shrinks := by
  rintro b w more rest (h | h)
  · exact Or.inl (hR h)
  · exact Or.inr (hS h)

theorem Shrinks.rounds (hR : R.Shrinks) (n : ℕ) : (R.rounds n).Shrinks := by
  induction n with
  | zero => exact id
  | succ n ih => exact hR.andThen ih

theorem Shrinks.between (hR : R.Shrinks) (least : ℕ) (most : Option ℕ) :
    (R.between least most).Shrinks := by
  rintro b w more rest ⟨n, hl, hm, h⟩
  exact ⟨n, hl, hm, hR.rounds n h⟩

end Reading

theorem Expression.reading_shrinks (e : Expression) : e.reading.Shrinks := by
  induction e with
  | empty | text | set | textStart => exact id
  | textEnd =>
    rintro b w more rest ⟨hw, hrest⟩
    exact ⟨hw, (List.append_eq_nil_iff.mp hrest).1⟩
  | capture _ e ih => exact ih
  | repeated least most _ e ih => exact ih.between least most
  | cat e f he hf => exact he.andThen hf
  | either e f he hf => exact he.orElse hf

end SparqlTokens
