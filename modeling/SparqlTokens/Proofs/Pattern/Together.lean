import SparqlTokens.Proofs.Pattern.Languages

/-! Regular expressions read together. What is said of the expressions that describe a text, among
some of them, is decided for all texts at once: a text leads each to a situation, and the search goes
through the situations they can be in at the same time. So languages are compared, and shown to have
no text in common. -/
namespace SparqlTokens

namespace Pattern

/-- What is left of some residuals behind the next character, however little it is preferred. -/
def rests : List Course → List Residual
  | [] => []
  | .stop :: cs => rests cs
  | .rest r :: cs => r :: rests cs

theorem mem_rests {cs : List Course} {r : Residual} : r ∈ rests cs ↔ .rest r ∈ cs := by
  induction cs with
  | nil => exact iff_of_false List.not_mem_nil List.not_mem_nil
  | cons c cs ih => cases c <;> simp [rests, ih]

theorem reads_rests {c : Char} {w : List Char} {rs : List Residual} :
    Reads false (rests (courses false (some c) rs)) w [] ↔ Reads false rs (c :: w) [] := by
  rw [reads_cons_iff]
  simp only [Reads, mem_rests]

/-- Whether a match may end where the text does. -/
def mayEnd (rs : List Residual) : Bool := (courses false none rs).contains .stop

theorem mayEnd_iff {rs : List Residual} : mayEnd rs = true ↔ Reads false rs [] [] := by
  rw [mayEnd, List.contains_iff_mem, reads_nil_iff]
  rfl

/-- Labelled situations at one place of a text. -/
abbrev Joint (α : Type) := List (α × List Residual)

namespace Joint

variable {α : Type}

/-- The labels of the situations in which a match may end. -/
def ended (s : Joint α) : List α := (s.filter fun p => mayEnd p.2).map Prod.fst

/-- The situations behind a character, less those in which nothing is left to read. -/
def behind (c : Char) (s : Joint α) : Joint α :=
  (s.map fun p => (p.1, rests (courses false (some c) p.2))).filter fun p => !p.2.isEmpty

def following (s : Joint α) : List (Joint α) :=
  (probes (s.flatMap Prod.snd)).map fun c => behind c s

theorem behind_mem (c : Char) (s : Joint α) : behind c s ∈ following s := by
  obtain ⟨d, hd, halike⟩ := exists_probe (s.flatMap Prod.snd) c
  have hsame : behind c s = behind d s := by
    apply congrArg (List.filter _)
    apply List.map_congr_left
    intro p hp
    rw [courses_alike false fun r hr => halike r (List.mem_flatMap.mpr ⟨p, hp, hr⟩)]
  rw [hsame]
  exact List.mem_map_of_mem hd

open Classical in
/-- The labels of the situations that read the rest of a text. -/
noncomputable def reading (w : List Char) (s : Joint α) : List α :=
  (s.filter fun p => Reads false p.2 w []).map Prod.fst

theorem reading_nil (s : Joint α) : reading [] s = ended s := by
  simp only [reading, ended, ← mayEnd_iff, Bool.decide_eq_true]

theorem reading_behind (c : Char) (w : List Char) (s : Joint α) :
    reading w (behind c s) = reading (c :: w) s := by
  have hempty : ∀ rs : List Residual, Reads false rs w [] → rs.isEmpty = false := by
    rintro rs ⟨r, hr, _⟩
    exact List.isEmpty_eq_false_iff.mpr (List.ne_nil_of_mem hr)
  rw [reading, behind, List.filter_filter, List.filter_map, List.map_map, reading]
  congr 1
  apply List.filter_congr
  intro p _
  by_cases h : Reads false (rests (courses false (some c) p.2)) w []
  · simp [h, hempty _ h, reads_rests.mp h]
  · simp [h, mt reads_rests.mpr h]

theorem holds_of_closed {P : List α → Bool} {R : Set (Joint α)}
    (hR : Closed (fun s => P (ended s)) following R) {s : Joint α} (hs : s ∈ R) (w : List Char) :
    P (reading w s) = true := by
  induction w generalizing s with
  | nil =>
    rw [reading_nil]
    exact (hR s hs).1
  | cons c w ih =>
    rw [← reading_behind]
    exact ih ((hR s hs).2 _ (behind_mem c s))

end Joint

end Pattern

namespace Expression

open Pattern

variable {α : Type}

theorem reads_iff {e : Expression} (h : e.Regular) (w : List Char) :
    Reads false [[e.pattern]] w [] ↔ w ∈ e.language := by
  rw [reads_pattern, pattern, toPattern_reading h.wellFormed]
  exact reading_iff h.plain false w []

/-- Whether `P` holds, for every text, of those of some labels whose expressions describe it, found
in at most `bound` steps. -/
def holdsWith [BEq α] (bound : ℕ) (P : List α → Bool) (form : α → Expression) (labels : List α) :
    Bool :=
  searched (fun s => P (Joint.ended s)) Joint.following bound []
    [labels.map fun a => (a, [[(form a).pattern]])]

open Classical in
theorem holds_of_holdsWith [BEq α] [LawfulBEq α] {bound : ℕ} {P : List α → Bool}
    {form : α → Expression} {labels : List α} (hr : ∀ a ∈ labels, (form a).Regular)
    (h : holdsWith bound P form labels = true) (w : List Char) :
    P (labels.filter fun a => w ∈ (form a).language) = true := by
  obtain ⟨R, hstart, hR⟩ := closed_of_searched h
  have hreading : Joint.reading w (labels.map fun a => (a, [[(form a).pattern]])) =
      labels.filter fun a => w ∈ (form a).language := by
    rw [Joint.reading, List.filter_map, List.map_map]
    refine (List.map_id _).trans (List.filter_congr ?_)
    intro a ha
    simp only [Function.comp_apply, reads_iff (hr a ha)]
  rw [← hreading]
  exact Joint.holds_of_closed hR (hstart _ List.mem_cons_self) w

theorem eq_of_length_le_one {l : List α} (h : l.length ≤ 1) {a b : α} (ha : a ∈ l) (hb : b ∈ l) :
    a = b := by
  match l, h with
  | [], _ => cases ha
  | [c], _ => rw [List.mem_singleton.mp ha, List.mem_singleton.mp hb]

/-- Whether no text is described both for the label `a` and for another, found in at most `bound`
steps. -/
def isApartWith [BEq α] (bound : ℕ) (a : α) (form : α → Expression) (labels : List α) : Bool :=
  holdsWith bound (fun l => !l.contains a || decide (l.length ≤ 1)) form labels

theorem eq_of_isApartWith [BEq α] [LawfulBEq α] {bound : ℕ} {form : α → Expression}
    {labels : List α} (hr : ∀ c ∈ labels, (form c).Regular) {a b : α}
    (h : isApartWith bound a form labels = true) (ha : a ∈ labels) (hb : b ∈ labels)
    {w : List Char} (hwa : w ∈ (form a).language) (hwb : w ∈ (form b).language) : a = b := by
  classical
  have hfound : ∀ c ∈ labels, w ∈ (form c).language →
      c ∈ labels.filter fun c => w ∈ (form c).language :=
    fun c hc hw => List.mem_filter.mpr ⟨hc, decide_eq_true hw⟩
  have halone := holds_of_holdsWith hr h w
  rw [List.contains_iff_mem.mpr (hfound a ha hwa), Bool.not_true, Bool.false_or,
    decide_eq_true_iff] at halone
  exact eq_of_length_le_one halone (hfound a ha hwa) (hfound b hb hwb)

end Expression

end SparqlTokens
