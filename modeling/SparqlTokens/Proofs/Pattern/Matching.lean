import Mathlib.Order.Bounds.Basic
import SparqlTokens.Pattern.Match
import SparqlTokens.Proofs.Pattern.Courses
import SparqlTokens.Proofs.Pattern.Situations

/-! What the matcher finds, for patterns that are tied to the start of the text. A match is found if
and only if the pattern reads a start of the text. The match preferred need not be the longest; it
is when no course that could read on ever stands behind one that ends the match. Such patterns are
called patient, and patience is decided by walking through the finitely many situations in which a
pattern can be, with one character for each way in which its sets tell characters apart. -/
namespace SparqlTokens.Pattern

variable {b : Bool}

def Reads (b : Bool) (rs : List Residual) (w rest : List Char) : Prop :=
  ∃ r ∈ rs, Residual.reading r b w rest

theorem reads_nil_iff {rs : List Residual} {rest : List Char} :
    Reads b rs [] rest ↔ .stop ∈ courses b rest.head? rs := by
  simp only [Reads, reads_nothing_iff, mem_courses]

theorem reads_cons_iff {rs : List Residual} {c : Char} {w rest : List Char} :
    Reads b rs (c :: w) rest ↔
      ∃ k, .rest k ∈ courses b (some c) rs ∧ Residual.reading k false w rest := by
  simp only [Reads, reads_char_iff, mem_courses]
  constructor
  · rintro ⟨r, hr, k, hk, h⟩
    exact ⟨k, ⟨r, hr, hk⟩, h⟩
  · rintro ⟨k, ⟨r, hr, hk⟩, h⟩
    exact ⟨r, hr, k, hk, h⟩

theorem preferred_stop {cs : List Course} : (preferred cs).2 = true ↔ .stop ∈ cs := by
  induction cs with
  | nil => simp [preferred]
  | cons c cs ih => cases c <;> simp [preferred, ih]

theorem preferred_mem {cs : List Course} {k : Residual} (h : k ∈ (preferred cs).1) :
    .rest k ∈ cs := by
  induction cs with
  | nil => cases h
  | cons c cs ih =>
    cases c with
    | stop => cases h
    | rest r =>
      rcases List.mem_cons.mp h with rfl | h
      · exact List.mem_cons_self
      · exact List.mem_cons_of_mem _ (ih h)

theorem preferred_or_cut {cs : List Course} {k : Residual} (h : .rest k ∈ cs) :
    k ∈ (preferred cs).1 ∨ (preferred cs).2 = true := by
  induction cs with
  | nil => cases h
  | cons c cs ih =>
    cases c with
    | stop => exact Or.inr rfl
    | rest r =>
      rcases List.mem_cons.mp h with he | h
      · cases he
        exact Or.inl List.mem_cons_self
      · exact (ih h).imp_left (List.mem_cons_of_mem _)

/-- No course that reads on stands behind one that ends the match. -/
def uncut : List Course → Bool
  | [] => true
  | .stop :: cs => cs.all (· = .stop)
  | .rest _ :: cs => uncut cs

theorem preferred_of_uncut {cs : List Course} (hu : uncut cs = true) {k : Residual}
    (h : .rest k ∈ cs) : k ∈ (preferred cs).1 := by
  induction cs with
  | nil => cases h
  | cons c cs ih =>
    cases c with
    | stop =>
      rcases List.mem_cons.mp h with he | h
      · cases he
      · have := List.all_eq_true.mp hu _ h
        simp at this
    | rest r =>
      rcases List.mem_cons.mp h with he | h
      · cases he
        exact List.mem_cons_self
      · exact List.mem_cons_of_mem _ (ih hu h)

/-- What is found before the rest of the text is read. -/
def foundSoFar (cs : List Course) (read : ℕ) (found : Option ℕ) : Option ℕ :=
  if (preferred cs).2 then some read else found

theorem matchFrom_cons (b : Bool) (rs : List Residual) (read : ℕ) (found : Option ℕ) (c : Char)
    (text : List Char) : matchFrom b rs read found (c :: text) =
      if (preferred (courses b (some c) rs)).1 = [] then
        foundSoFar (courses b (some c) rs) read found
      else matchFrom false (preferred (courses b (some c) rs)).1 (read + 1)
        (foundSoFar (courses b (some c) rs) read found) text := by
  simp only [matchFrom, foundSoFar, List.isEmpty_iff]

theorem matchFrom_sound {rs : List Residual} {read n : ℕ} {found : Option ℕ} {text : List Char}
    (h : matchFrom b rs read found text = some n) :
    found = some n ∨ ∃ w rest, text = w ++ rest ∧ n = read + w.length ∧ Reads b rs w rest := by
  have ends : ∀ {b rs} {read n : ℕ} {found : Option ℕ} {text : List Char},
      foundSoFar (courses b text.head? rs) read found = some n →
      found = some n ∨ ∃ w rest, text = w ++ rest ∧ n = read + w.length ∧ Reads b rs w rest := by
    intro b rs read n found text h
    unfold foundSoFar at h
    split at h
    · next hs =>
      cases h
      exact Or.inr ⟨[], text, rfl, rfl, reads_nil_iff.mpr (preferred_stop.mp hs)⟩
    · exact Or.inl h
  induction text generalizing b rs read found with
  | nil => exact ends h
  | cons c text ih =>
    rw [matchFrom_cons] at h
    split at h
    · exact ends h
    · rcases ih h with h | ⟨w, rest, rfl, rfl, r, hr, hread⟩
      · exact ends h
      · refine Or.inr ⟨c :: w, rest, rfl, by simp only [List.length_cons]; omega, ?_⟩
        exact reads_cons_iff.mpr ⟨r, preferred_mem hr, hread⟩

theorem matchFrom_keeps {rs : List Residual} {read : ℕ} {found : Option ℕ} {text : List Char}
    (h : found.isSome) : (matchFrom b rs read found text).isSome := by
  induction text generalizing b rs read found with
  | nil => simp only [matchFrom]; split <;> simp [h]
  | cons c text ih =>
    have hf : (foundSoFar (courses b (some c) rs) read found).isSome := by
      unfold foundSoFar
      split <;> simp [h]
    rw [matchFrom_cons]
    split
    · exact hf
    · exact ih hf

theorem foundSoFar_stop {cs : List Course} {read : ℕ} {found : Option ℕ}
    (h : (preferred cs).2 = true) : foundSoFar cs read found = some read := by
  simp [foundSoFar, h]

theorem matchFrom_complete {rs : List Residual} {read : ℕ} {found : Option ℕ} {w rest : List Char}
    (h : Reads b rs w rest) : (matchFrom b rs read found (w ++ rest)).isSome := by
  induction w generalizing b rs read found with
  | nil =>
    have hs := preferred_stop.mpr (reads_nil_iff.mp h)
    cases rest with
    | nil => simp only [List.head?_nil] at hs; simp [matchFrom, hs]
    | cons c rest =>
      rw [List.head?_cons] at hs
      rw [List.nil_append, matchFrom_cons, foundSoFar_stop hs]
      split
      · rfl
      · exact matchFrom_keeps rfl
  | cons c w ih =>
    obtain ⟨k, hk, hread⟩ := reads_cons_iff.mp h
    rw [List.cons_append, matchFrom_cons]
    rcases preferred_or_cut hk with hk | hs
    · rw [if_neg (List.ne_nil_of_mem hk)]
      exact ih ⟨k, hk, hread⟩
    · rw [foundSoFar_stop hs]
      split
      · rfl
      · exact matchFrom_keeps rfl

theorem matchFrom_least {rs : List Residual} {read n a : ℕ} {found : Option ℕ} {text : List Char}
    (hf : ∀ m, found = some m → a ≤ m) (hr : a ≤ read)
    (h : matchFrom b rs read found text = some n) : a ≤ n := by
  rcases matchFrom_sound h with h | ⟨w, rest, _, rfl, _⟩
  · exact hf n h
  · omega

/-- Along a text, the matcher never gives up a course. -/
def Patient : Bool → List Residual → List Char → Prop
  | _, _, [] => True
  | b, rs, c :: text => uncut (courses b (some c) rs) = true ∧
      Patient false (preferred (courses b (some c) rs)).1 text

theorem matchFrom_longest {rs : List Residual} {read n : ℕ} {found : Option ℕ} {w rest : List Char}
    (hp : Patient b rs (w ++ rest)) (h : matchFrom b rs read found (w ++ rest) = some n)
    (hw : Reads b rs w rest) : read + w.length ≤ n := by
  induction w generalizing b rs read found with
  | nil =>
    have hs := preferred_stop.mpr (reads_nil_iff.mp hw)
    cases rest with
    | nil =>
      simp only [List.head?_nil] at hs
      simp only [List.append_nil, matchFrom, hs, if_true] at h
      cases h
      exact le_rfl
    | cons c rest =>
      rw [List.head?_cons] at hs
      rw [List.nil_append, matchFrom_cons, foundSoFar_stop hs] at h
      split at h
      · cases h; exact le_rfl
      · exact matchFrom_least (fun m hm => by cases hm; exact le_rfl) (Nat.le_succ _) h
  | cons c w ih =>
    obtain ⟨k, hk, hread⟩ := reads_cons_iff.mp hw
    have hmem := preferred_of_uncut hp.1 hk
    rw [List.cons_append, matchFrom_cons, if_neg (List.ne_nil_of_mem hmem)] at h
    have := ih hp.2 h ⟨k, hmem, hread⟩
    simp only [List.length_cons]
    omega

theorem reads_pattern {p : Pattern} {w rest : List Char} :
    Reads b [[p]] w rest ↔ p.reading b w rest := by
  simp [Reads, reading_single]

theorem find?_anchored {p : Pattern} (hs : p.startsAtTextStart = true) (text : List Char) :
    p.find? text = matchFrom true [[p]] 0 none text := by
  simp [find?, hs]

theorem find?_isSome_iff {p : Pattern} (hs : p.startsAtTextStart = true) {text : List Char} :
    (p.find? text).isSome ↔ ∃ w rest, text = w ++ rest ∧ p.reading true w rest := by
  rw [find?_anchored hs]
  constructor
  · intro h
    obtain ⟨n, hn⟩ := Option.isSome_iff_exists.mp h
    rcases matchFrom_sound hn with h | ⟨w, rest, ht, _, hw⟩
    · cases h
    · exact ⟨w, rest, ht, reads_pattern.mp hw⟩
  · rintro ⟨w, rest, rfl, hw⟩
    exact matchFrom_complete (reads_pattern.mpr hw)

/-- The lengths of the starts of a text that a pattern reads. -/
def readLengths (p : Pattern) (text : List Char) : Set ℕ :=
  {n | ∃ w rest, text = w ++ rest ∧ w.length = n ∧ p.reading true w rest}

/-- A patient pattern prefers its longest match. -/
theorem find?_longest {p : Pattern} (hs : p.startsAtTextStart = true) {text : List Char}
    (hp : Patient true [[p]] text) {n : ℕ} :
    p.find? text = some n ↔ IsGreatest (p.readLengths text) n := by
  have greatest : ∀ {m}, p.find? text = some m → IsGreatest (p.readLengths text) m := by
    intro m h
    rw [find?_anchored hs] at h
    refine ⟨?_, ?_⟩
    · rcases matchFrom_sound h with h | ⟨w, rest, ht, hn, hw⟩
      · cases h
      · exact ⟨w, rest, ht, by omega, reads_pattern.mp hw⟩
    · rintro _ ⟨w, rest, rfl, rfl, hw⟩
      have := matchFrom_longest hp h (reads_pattern.mpr hw)
      omega
  refine ⟨greatest, fun h => ?_⟩
  obtain ⟨w, rest, ht, _, hw⟩ := h.1
  obtain ⟨m, hm⟩ := Option.isSome_iff_exists.mp ((find?_isSome_iff hs).mpr ⟨w, rest, ht, hw⟩)
  rw [hm, (greatest hm).unique h]

/-! Patience decided -/

/-- Whether no course is given up before any character. -/
def isUncut (b : Bool) (rs : List Residual) : Bool :=
  (probes rs).all fun c => uncut (courses b (some c) rs)

/-- What a character can leave of some residuals. -/
def leftovers (b : Bool) (rs : List Residual) : List (List Residual) :=
  (probes rs).map fun c => (preferred (courses b (some c) rs)).1

/-- Whether a pattern is patient on every text, found in at most `bound` steps. -/
def isPatientWith (bound : ℕ) (p : Pattern) : Bool :=
  isUncut true [[p]] &&
    searched (isUncut false) (leftovers false) bound [] (leftovers true [[p]])

theorem isUncut_courses {rs : List Residual} (h : isUncut b rs = true) (c : Char) :
    uncut (courses b (some c) rs) = true ∧
      (preferred (courses b (some c) rs)).1 ∈ leftovers b rs := by
  obtain ⟨d, hd, halike⟩ := exists_probe rs c
  rw [courses_alike b halike]
  exact ⟨List.all_eq_true.mp h d hd, List.mem_map_of_mem hd⟩

/-- Situations that only lead to one another are patient on every text. -/
theorem patient_of_closed {R : Set (List Residual)}
    (hR : Closed (isUncut false) (leftovers false) R) {rs : List Residual} (h : rs ∈ R)
    (text : List Char) : Patient false rs text := by
  induction text generalizing rs with
  | nil => trivial
  | cons c text ih =>
    obtain ⟨hu, hnext⟩ := isUncut_courses (hR rs h).1 c
    exact ⟨hu, ih ((hR rs h).2 _ hnext)⟩

theorem patient_of_isPatientWith {bound : ℕ} {p : Pattern} (h : p.isPatientWith bound = true)
    (text : List Char) : Patient true [[p]] text := by
  obtain ⟨hfirst, hsearched⟩ := Bool.and_eq_true_iff.mp h
  obtain ⟨R, hstart, hR⟩ := closed_of_searched hsearched
  cases text with
  | nil => trivial
  | cons c text =>
    obtain ⟨hu, hnext⟩ := isUncut_courses hfirst c
    exact ⟨hu, patient_of_closed hR (hstart _ hnext) text⟩

end SparqlTokens.Pattern
