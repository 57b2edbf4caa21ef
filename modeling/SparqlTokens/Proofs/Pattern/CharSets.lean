import SparqlTokens.Pattern.CharSet
import Mathlib.Data.List.Basic
import Mathlib.Order.Nat

/-! Membership in sets of characters. A set whose bounds ascend behaves as a set: the operations are
those of the members one by one. Membership is constant between two neighbouring bounds, so finitely
many characters tell all there is to know of a set. -/
namespace SparqlTokens.CharSet

/-- The bounds of a set in order, as every operation keeps them. -/
def Ascending (s : CharSet) : Prop := s.bounds.Pairwise (· < ·)

instance (s : CharSet) : Decidable s.Ascending :=
  inferInstanceAs (Decidable (List.Pairwise _ _))

theorem mem_iff {c : Char} {s : CharSet} : c ∈ s ↔ insideAt (ordinal c) s.bounds = true := Iff.rfl

theorem insideAt_below {n : ℕ} {bs : List ℕ} (h : ∀ b ∈ bs, n < b) : insideAt n bs = false := by
  cases bs with
  | nil => rfl
  | cons b bs => simp [insideAt, h b List.mem_cons_self]

theorem insideAt_congr {m n : ℕ} {bs : List ℕ} (h : ∀ b ∈ bs, b ≤ m ↔ b ≤ n) :
    insideAt m bs = insideAt n bs := by
  induction bs with
  | nil => rfl
  | cons b bs ih =>
    have hb := h b List.mem_cons_self
    have hrest := ih (fun c hc => h c (List.mem_cons_of_mem _ hc))
    by_cases hm : m < b
    · have hn : n < b := by omega
      simp [insideAt, hm, hn]
    · have hn : ¬ n < b := by omega
      simp [insideAt, hm, hn, hrest]

/-- The bounds of one side behind the bound `b`. -/
def behind (b : ℕ) (bs : List ℕ) : List ℕ := if bs.head? = some b then bs.tail else bs

/-- Membership at the bound `b`, from membership below it. -/
def crossed (b : ℕ) (bs : List ℕ) (inside : Bool) : Bool :=
  if bs.head? = some b then !inside else inside

theorem combineBounds_succ (f : Bool → Bool → Bool) (bound : ℕ) (inS inT : Bool)
    (bs cs : List ℕ) {b : ℕ} (h : nextBound bs cs = some b) :
    combineBounds f (bound + 1) inS inT bs cs =
      if f inS inT = f (crossed b bs inS) (crossed b cs inT) then
        combineBounds f bound (crossed b bs inS) (crossed b cs inT) (behind b bs) (behind b cs)
      else b ::
        combineBounds f bound (crossed b bs inS) (crossed b cs inT) (behind b bs)
          (behind b cs) := by
  simp only [combineBounds, h]
  rfl

theorem nextBound_least {bs cs : List ℕ} {b : ℕ} (hbs : bs.Pairwise (· < ·))
    (hcs : cs.Pairwise (· < ·)) (h : nextBound bs cs = some b) :
    (∀ x ∈ bs, b ≤ x) ∧ (∀ x ∈ cs, b ≤ x) ∧ (bs.head? = some b ∨ cs.head? = some b) := by
  have least : ∀ {y : ℕ} {ys : List ℕ}, (y :: ys).Pairwise (· < ·) → ∀ x ∈ y :: ys, y ≤ x := by
    intro y ys hp x hx
    rcases List.mem_cons.mp hx with rfl | hx
    · exact le_rfl
    · exact ((List.pairwise_cons.mp hp).1 x hx).le
  cases bs with
  | nil =>
    cases cs with
    | nil => cases h
    | cons c cs => cases h; exact ⟨by simp, least hcs, Or.inr rfl⟩
  | cons a bs =>
    cases cs with
    | nil => cases h; exact ⟨least hbs, by simp, Or.inl rfl⟩
    | cons c cs =>
      cases h
      refine ⟨fun x hx => (min_le_left a c).trans (least hbs x hx),
        fun x hx => (min_le_right a c).trans (least hcs x hx), ?_⟩
      rcases le_total a c with hac | hca
      · exact Or.inl (by simp [hac])
      · exact Or.inr (by simp [hca])

theorem behind_ascends {b : ℕ} {bs : List ℕ} (h : bs.Pairwise (· < ·)) (hb : ∀ x ∈ bs, b ≤ x) :
    (behind b bs).Pairwise (· < ·) ∧ ∀ x ∈ behind b bs, b < x := by
  cases bs with
  | nil => simp [behind]
  | cons a bs =>
    obtain ⟨ha, hbs⟩ := List.pairwise_cons.mp h
    by_cases hab : a = b
    · subst hab
      simpa [behind] using And.intro hbs ha
    · have hlt : b < a := lt_of_le_of_ne (hb a List.mem_cons_self) (Ne.symm hab)
      simp only [behind, List.head?_cons, Option.some.injEq, hab, if_false]
      refine ⟨h, fun x hx => ?_⟩
      rcases List.mem_cons.mp hx with rfl | hx
      · exact hlt
      · exact hlt.trans (ha x hx)

theorem length_behind (b : ℕ) (bs : List ℕ) :
    (behind b bs).length = if bs.head? = some b then bs.length - 1 else bs.length := by
  unfold behind
  split <;> simp

theorem length_behind_lt {b bound : ℕ} {bs cs : List ℕ}
    (hhead : bs.head? = some b ∨ cs.head? = some b) (hb : bs.length + cs.length ≤ bound + 1) :
    (behind b bs).length + (behind b cs).length ≤ bound := by
  have hpos : ∀ {xs : List ℕ}, xs.head? = some b → 0 < xs.length := by
    intro xs hx
    cases xs with
    | nil => cases hx
    | cons => simp
  rw [length_behind, length_behind]
  rcases hhead with h | h
  · have := hpos h
    simp only [h, if_true]
    split <;> omega
  · have := hpos h
    simp only [h, if_true]
    split <;> omega

theorem insideAt_behind {b n : ℕ} {bs : List ℕ} (hn : b ≤ n) (inside : Bool) :
    (inside != insideAt n bs) = (crossed b bs inside != insideAt n (behind b bs)) := by
  cases bs with
  | nil => simp [crossed, behind]
  | cons a bs =>
    by_cases hab : a = b
    · subst hab
      simp only [crossed, behind, List.head?_cons, if_true, List.tail_cons, insideAt, not_lt.mpr hn,
        if_false]
      cases inside <;> simp
    · simp [crossed, behind, hab]

/-- The combined bounds give membership by `f` at every number. Below the next bound neither side
changes, and from it on both sides are read behind it. -/
theorem insideAt_combineBounds (f : Bool → Bool → Bool) (n : ℕ) {bound : ℕ} (inS inT : Bool)
    {bs cs : List ℕ} (hbs : bs.Pairwise (· < ·)) (hcs : cs.Pairwise (· < ·))
    (hb : bs.length + cs.length ≤ bound) :
    (f inS inT != insideAt n (combineBounds f bound inS inT bs cs)) =
      f (inS != insideAt n bs) (inT != insideAt n cs) := by
  induction bound generalizing inS inT bs cs with
  | zero =>
    have hs : bs = [] := List.length_eq_zero_iff.mp (by omega)
    have ht : cs = [] := List.length_eq_zero_iff.mp (by omega)
    simp [hs, ht, combineBounds, insideAt]
  | succ bound ih =>
    cases hnext : nextBound bs cs with
    | none =>
      have hs : bs = [] ∧ cs = [] := by
        cases bs <;> cases cs <;> simp_all [nextBound]
      simp [hs.1, hs.2, combineBounds, nextBound, insideAt]
    | some b =>
      obtain ⟨lowS, lowT, hhead⟩ := nextBound_least hbs hcs hnext
      obtain ⟨ascS, overS⟩ := behind_ascends hbs lowS
      obtain ⟨ascT, overT⟩ := behind_ascends hcs lowT
      have rest := ih (crossed b bs inS) (crossed b cs inT) ascS ascT (length_behind_lt hhead hb)
      rw [combineBounds_succ f bound inS inT bs cs hnext]
      by_cases hn : n < b
      · have belowS : insideAt n bs = false :=
          insideAt_below fun x hx => hn.trans_le (lowS x hx)
        have belowT : insideAt n cs = false :=
          insideAt_below fun x hx => hn.trans_le (lowT x hx)
        rw [insideAt_below fun x hx => hn.trans (overS x hx),
          insideAt_below fun x hx => hn.trans (overT x hx)] at rest
        rw [belowS, belowT]
        split
        · simp_all
        · simp [insideAt, hn]
      · have hle : b ≤ n := not_lt.mp hn
        rw [insideAt_behind hle inS, insideAt_behind hle inT, ← rest]
        split
        · next he => rw [he]
        · next he =>
          simp only [insideAt, hn, if_false]
          revert he
          cases f inS inT <;> cases f (crossed b bs inS) (crossed b cs inT) <;> simp

theorem combineBounds_over {f : Bool → Bool → Bool} {bound : ℕ} {inS inT : Bool} {bs cs : List ℕ}
    {b x : ℕ} (hbs : ∀ x ∈ bs, b < x) (hcs : ∀ x ∈ cs, b < x)
    (hx : x ∈ combineBounds f bound inS inT bs cs) : b < x := by
  induction bound generalizing inS inT bs cs with
  | zero => cases hx
  | succ bound ih =>
    cases hnext : nextBound bs cs with
    | none => simp [combineBounds, hnext] at hx
    | some a =>
      have hsub : ∀ {xs : List ℕ}, (∀ x ∈ xs, b < x) → ∀ x ∈ behind a xs, b < x := by
        intro xs h x hx
        unfold behind at hx
        split at hx
        · exact h x (List.mem_of_mem_tail hx)
        · exact h x hx
      have ha : b < a := by
        cases bs with
        | nil =>
          cases cs with
          | nil => cases hnext
          | cons c cs => cases hnext; exact hcs _ List.mem_cons_self
        | cons d bs =>
          cases cs with
          | nil => cases hnext; exact hbs _ List.mem_cons_self
          | cons c cs =>
            cases hnext
            exact lt_min (hbs _ List.mem_cons_self) (hcs _ List.mem_cons_self)
      rw [combineBounds_succ f bound inS inT bs cs hnext] at hx
      split at hx
      · exact ih (hsub hbs) (hsub hcs) hx
      · rcases List.mem_cons.mp hx with rfl | hx
        · exact ha
        · exact ih (hsub hbs) (hsub hcs) hx

theorem combineBounds_ascends (f : Bool → Bool → Bool) (bound : ℕ) {inS inT : Bool}
    {bs cs : List ℕ} (hbs : bs.Pairwise (· < ·)) (hcs : cs.Pairwise (· < ·)) :
    (combineBounds f bound inS inT bs cs).Pairwise (· < ·) := by
  induction bound generalizing inS inT bs cs with
  | zero => exact List.Pairwise.nil
  | succ bound ih =>
    cases hnext : nextBound bs cs with
    | none => simp [combineBounds, hnext]
    | some b =>
      obtain ⟨lowS, lowT, _⟩ := nextBound_least hbs hcs hnext
      obtain ⟨ascS, overS⟩ := behind_ascends hbs lowS
      obtain ⟨ascT, overT⟩ := behind_ascends hcs lowT
      rw [combineBounds_succ f bound inS inT bs cs hnext]
      split
      · exact ih ascS ascT
      · exact List.Pairwise.cons (fun x hx => combineBounds_over overS overT hx) (ih ascS ascT)

theorem combine_ascending {f : Bool → Bool → Bool} {s t : CharSet} (hs : s.Ascending)
    (ht : t.Ascending) : (combine f s t).Ascending := combineBounds_ascends f _ hs ht

theorem contains_combine {f : Bool → Bool → Bool} (hf : f false false = false) {s t : CharSet}
    (hs : s.Ascending) (ht : t.Ascending) (c : Char) :
    (combine f s t).contains c = f (s.contains c) (t.contains c) := by
  have h := insideAt_combineBounds f (ordinal c) false false hs ht le_rfl
  simpa [contains, combine, hf] using h

theorem mem_union {s t : CharSet} (hs : s.Ascending) (ht : t.Ascending) {c : Char} :
    c ∈ s.union t ↔ c ∈ s ∨ c ∈ t := by
  have h := contains_combine (f := (· || ·)) rfl hs ht c
  change (combine _ s t).contains c = true ↔ s.contains c = true ∨ t.contains c = true
  rw [h, Bool.or_eq_true]

theorem union_ascending {s t : CharSet} (hs : s.Ascending) (ht : t.Ascending) :
    (s.union t).Ascending := combine_ascending hs ht

theorem mem_inter {s t : CharSet} (hs : s.Ascending) (ht : t.Ascending) {c : Char} :
    c ∈ s.inter t ↔ c ∈ s ∧ c ∈ t := by
  have h := contains_combine (f := (· && ·)) rfl hs ht c
  change (combine _ s t).contains c = true ↔ s.contains c = true ∧ t.contains c = true
  rw [h, Bool.and_eq_true]

theorem ordinal_le {c d : Char} : ordinal c ≤ ordinal d ↔ c ≤ d := by
  have valid : ∀ e : Char, e.toNat < 0xD800 ∨ 0xDFFF < e.toNat := by
    intro e
    rcases e.valid with h | h
    · exact Or.inl h
    · exact Or.inr h.1
  have hc := valid c
  have hd := valid d
  have horder : c ≤ d ↔ c.toNat ≤ d.toNat := Iff.rfl
  rw [horder]
  unfold ordinal
  split <;> split <;> omega

theorem ordinal_lt (c : Char) : ordinal c < 0x10F800 := by
  have hc : c.toNat < 0x110000 := by
    rcases c.valid with h | h
    · exact lt_trans h (by decide)
    · exact h.2
  unfold ordinal
  split <;> omega

theorem ordinal_ofNat {n : ℕ} (hn : n < 0x10F800) : ordinal (Char.ofNat (codePoint n)) = n := by
  have hv : (codePoint n).isValidChar := by
    unfold codePoint
    split
    · exact Or.inl ‹_›
    · exact Or.inr ⟨by omega, by omega⟩
  have ht : (Char.ofNat (codePoint n)).toNat = codePoint n := by
    rw [Char.ofNat, dif_pos hv]
    rfl
  unfold ordinal
  rw [ht]
  unfold codePoint
  split
  · rfl
  · split <;> omega

theorem mem_range {lo hi c : Char} : c ∈ range lo hi ↔ lo ≤ c ∧ c ≤ hi := by
  rw [mem_iff, ← ordinal_le, ← ordinal_le]
  have hinside : insideAt (ordinal c) (range lo hi).bounds =
      if ordinal c < ordinal lo then false
      else !(if ordinal c < ordinal hi + 1 then false else true) := rfl
  rw [hinside]
  by_cases h : ordinal c < ordinal lo
  · rw [if_pos h]
    exact iff_of_false Bool.false_ne_true (by omega)
  · by_cases h' : ordinal c < ordinal hi + 1
    · rw [if_neg h, if_pos h']
      exact iff_of_true rfl (by omega)
    · rw [if_neg h, if_neg h']
      exact iff_of_false Bool.false_ne_true (by omega)

@[simp]
theorem mem_single {c d : Char} : c ∈ single d ↔ c = d := by
  rw [single, mem_range]
  constructor
  · rintro ⟨h, h'⟩
    exact Char.le_antisymm h' h
  · rintro rfl
    exact ⟨Char.le_refl _, Char.le_refl _⟩

theorem single_ascending (c : Char) : (single c).Ascending := by
  simp [Ascending, single, range]

theorem range_ascending {lo hi : Char} (h : lo ≤ hi) : (range lo hi).Ascending := by
  have := ordinal_le.mpr h
  simp only [Ascending, range, List.pairwise_cons, List.mem_singleton, forall_eq]
  refine ⟨by omega, fun _ hx => (by cases hx), List.Pairwise.nil⟩

theorem mem_all (c : Char) : c ∈ all := by
  have := ordinal_lt c
  simp [mem_iff, all, insideAt, this]

theorem mem_compl {s : CharSet} (hs : s.Ascending) {c : Char} : c ∈ s.compl ↔ c ∉ s := by
  have h := contains_combine (f := (· && !·)) rfl (s := all) (by decide) hs c
  have hall : all.contains c = true := mem_all c
  change (combine _ all s).contains c = true ↔ ¬ s.contains c = true
  rw [h, hall]
  simp

end SparqlTokens.CharSet
