import Mathlib.Algebra.Group.Nat.Defs
import SparqlTokens.Proofs.Text.LineTexts

/-! Positions as addresses. Line and column ascend along a text, so no two places have the same, and
they lead back to the character behind the place. The line may be found by halving the starts of
lines. Counters of 32 bits hold what line and column leave modulo 2^32, so they hold both numbers in
a text of fewer than 2^32 - 1 characters. -/
namespace SparqlTokens.Text

/-- On an earlier line, or earlier on the same line. -/
def Position.Before (p q : Position) : Prop :=
  p.line < q.line ∨ p.line = q.line ∧ p.column < q.column

theorem Position.Before.trans {p q r : Position} (h : p.Before q) (h' : q.Before r) :
    p.Before r := by
  unfold Before at *
  omega

theorem Position.Before.irrefl (p : Position) : ¬ p.Before p := by
  unfold Before
  omega

/-! Counting on -/

theorem counted_step (p : List Char) (c : Char) : (counted p).Before (counted (p ++ [c])) := by
  by_cases h : c = '\n'
  · subst h
    exact Or.inl (by simp [counted])
  · exact Or.inr (by simp [counted, lastLine_concat, h])

theorem counted_before (p : List Char) {u : List Char} (hu : u ≠ []) :
    (counted p).Before (counted (p ++ u)) := by
  induction u using List.reverseRecOn with
  | nil => exact absurd rfl hu
  | append_singleton u c ih =>
    have hstep := counted_step (p ++ u) c
    rw [List.append_assoc] at hstep
    cases u with
    | nil => rwa [List.append_nil] at hstep
    | cons d u => exact (ih (List.cons_ne_nil d u)).trans hstep

theorem counted_longer {p q : List Char} (h : p <+: q) (hne : p ≠ q) :
    (counted p).Before (counted q) ∧ byteSize p < byteSize q := by
  obtain ⟨r, rfl⟩ := h
  have hr : r ≠ [] := by
    rintro rfl
    exact hne (List.append_nil p).symm
  have hpos := byteSize_pos hr
  refine ⟨counted_before p hr, ?_⟩
  rw [byteSize_append]
  omega

/-- Of two starts of a text, the longer one has the later position behind it. -/
theorem counted_before_iff {text u v : List Char} (hu : u <+: text) (hv : v <+: text) :
    (counted u).Before (counted v) ↔ byteSize u < byteSize v := by
  by_cases heq : u = v
  · subst heq
    exact ⟨fun h => absurd h (Position.Before.irrefl _), fun h => absurd h (lt_irrefl _)⟩
  · rcases List.prefix_or_prefix_of_prefix hu hv with huv | hvu
    · obtain ⟨hbefore, hlt⟩ := counted_longer huv heq
      exact ⟨fun _ => hlt, fun _ => hbefore⟩
    · obtain ⟨hbefore, hlt⟩ := counted_longer hvu (Ne.symm heq)
      exact ⟨fun h => absurd (h.trans hbefore) (Position.Before.irrefl _), fun h => by omega⟩

namespace LineStarts

/-! The search by halves -/

/-- How many numbers of a list satisfy a condition, if none does behind one that does not. The list
is halved until nothing is left. -/
def halving (p : ℕ → Bool) (l : List ℕ) : ℕ :=
  match h : l.drop (l.length / 2) with
  | [] => 0
  | middle :: above =>
    if p middle then l.length / 2 + 1 + halving p above else halving p (l.take (l.length / 2))
termination_by l.length
decreasing_by
  all_goals
    have left := congrArg List.length h
    simp only [List.length_drop, List.length_cons, List.length_take] at left ⊢
    omega

section Halving

variable {p : ℕ → Bool} {middle : ℕ} {l below above : List ℕ}

theorem half_split (h : l.drop (l.length / 2) = middle :: above) :
    l = l.take (l.length / 2) ++ middle :: above := by
  rw [← h, List.take_append_drop]

/-- All that stands before a number that satisfies the condition satisfies it too. -/
theorem filter_through (hl : l = below ++ middle :: above)
    (h : l.Pairwise fun a b => p b → p a) (hmiddle : p middle = true) :
    (l.filter p).length = below.length + 1 + (above.filter p).length := by
  subst hl
  obtain ⟨_, _, hacross⟩ := List.pairwise_append.mp h
  have hbelow : below.filter p = below :=
    List.filter_eq_self.mpr fun a ha => hacross a ha middle List.mem_cons_self hmiddle
  rw [List.filter_append, hbelow, List.filter_cons_of_pos hmiddle, List.length_append,
    List.length_cons]
  omega

/-- Nothing behind a number that does not satisfy the condition satisfies it. -/
theorem filter_short (hl : l = below ++ middle :: above)
    (h : l.Pairwise fun a b => p b → p a) (hmiddle : ¬ p middle = true) :
    l.filter p = below.filter p := by
  subst hl
  obtain ⟨_, hrest, _⟩ := List.pairwise_append.mp h
  have hnone : (middle :: above).filter p = [] := by
    rw [List.filter_cons_of_neg hmiddle]
    exact List.filter_eq_nil_iff.mpr fun a ha hp =>
      hmiddle ((List.pairwise_cons.mp hrest).1 a ha hp)
  rw [List.filter_append, hnone, List.append_nil]

/-- Halving counts what a look at every number counts. -/
theorem halving_filter (h : l.Pairwise fun a b => p b → p a) :
    halving p l = (l.filter p).length := by
  fun_induction halving p l with
  | case1 l hdrop =>
    have hlength := List.drop_eq_nil_iff.mp hdrop
    have hnil : l = [] := List.length_eq_zero_iff.mp (by omega)
    rw [hnil]
    rfl
  | case2 l middle above hdrop hmiddle ih =>
    have hhalf : (l.take (l.length / 2)).length = l.length / 2 := by
      rw [List.length_take]
      omega
    have habove : (middle :: above).Pairwise fun a b => p b → p a := hdrop ▸ h.drop
    rw [filter_through (half_split hdrop) h hmiddle, hhalf, ih habove.of_cons]
  | case3 l middle above hdrop hmiddle ih =>
    rw [filter_short (half_split hdrop) h hmiddle, ih h.take]

end Halving

theorem afterFeeds_ascending (offset : ℕ) (p : List Char) :
    (afterFeeds offset p).Pairwise (· < ·) := by
  induction p generalizing offset with
  | nil => exact .nil
  | cons c p ih =>
    by_cases h : c = '\n'
    · simp only [afterFeeds, h, if_true]
      exact .cons (fun n hn => (afterFeeds_bounds hn).1) (ih _)
    · simp only [afterFeeds, h, if_false]
      exact ih _

theorem starts_ascending (text : List Char) : (ofText text).starts.Pairwise (· < ·) :=
  .cons (fun _ hn => Nat.zero_lt_of_lt (afterFeeds_bounds hn).1) (afterFeeds_ascending 0 text)

/-- Halving the starts of lines finds the line of an offset. -/
theorem lineOf_halving (text : List Char) (offset : ℕ) :
    halving (· ≤ offset) (ofText text).starts - 1 = (ofText text).lineOf offset := by
  rw [lineOf, halving_filter]
  refine (starts_ascending text).imp ?_
  intro a b hlt hb
  simp only [decide_eq_true_eq] at hb ⊢
  omega

end LineStarts

/-! Numbers of 32 bits -/

structure Address where
  line : UInt32
  column : UInt32
  deriving DecidableEq

def Address.position (a : Address) : Position := ⟨a.line.toNat, a.column.toNat⟩

def Position.address (p : Position) : Address := ⟨UInt32.ofNat p.line, UInt32.ofNat p.column⟩

theorem Position.address_position {p : Position} (hline : p.line < 2 ^ 32)
    (hcolumn : p.column < 2 ^ 32) : p.address.position = p := by
  rw [address, Address.position, UInt32.toNat_ofNat_of_lt' hline,
    UInt32.toNat_ofNat_of_lt' hcolumn]

namespace Address

/-- Two counters of 32 bits, kept up to date while a text is read. They begin again at zero behind
the end of their range. -/
def step (a : Address) (c : Char) : Address :=
  if c = '\n' then ⟨a.line + 1, 1⟩ else { a with column := a.column + 1 }

def advance (a : Address) (cs : List Char) : Address := cs.foldl step a

theorem ofNat_succ (n : ℕ) : UInt32.ofNat (n + 1) = UInt32.ofNat n + 1 := UInt32.ofNat_add n 1

theorem step_place (p : Place) (c : Char) :
    (p.step c).position.address = p.position.address.step c := by
  unfold Place.step step
  split
  · exact congrArg (Address.mk · 1) (ofNat_succ p.line)
  · exact congrArg (Address.mk _) (ofNat_succ p.column)

theorem advance_place (p : Place) (cs : List Char) :
    (p.advance cs).position.address = p.position.address.advance cs := by
  induction cs generalizing p with
  | nil => rfl
  | cons c r ih => rw [Place.advance_cons, ih, step_place, advance, advance, List.foldl_cons]

/-- The counters hold what the position counted leaves modulo 2^32. -/
theorem advance_counted (p : List Char) : advance ⟨1, 1⟩ p = (counted p).address := by
  have hread := advance_place {} p
  rw [advance_counts] at hread
  exact hread.symm

/-- A line and a column counted from zero, cut to 32 bits and then raised by one. -/
def ofCounts (line column : ℕ) : Address := ⟨UInt32.ofNat line + 1, UInt32.ofNat column + 1⟩

theorem ofCounts_eq (line column : ℕ) :
    ofCounts line column = (⟨line + 1, column + 1⟩ : Position).address := by
  rw [ofCounts, Position.address, ofNat_succ, ofNat_succ]

end Address

/-- The address of a byte offset, clipped to the end of `source`: its line is found by halving. -/
def LineStarts.address (l : LineStarts) (source : List Char) (offset : ℕ) : Address :=
  let offset := min offset (byteSize source)
  let line := halving (· ≤ offset) l.starts - 1
  let read := slice? (l.startOf line) offset source
  .ofCounts line ((read.map List.length).getD (offset - l.startOf line))

namespace LineStarts

theorem address_eq (text source : List Char) (offset : ℕ) :
    (ofText text).address source offset =
      .ofCounts (((ofText text).position source offset).line - 1)
        (((ofText text).position source offset).column - 1) := by
  simp only [address, position, lineOf_halving, Nat.add_sub_cancel]
  split
  · next read hread => simp [hread]
  · next hread => simp [hread]

/-- The numbers of 32 bits are those counted, if the text is not too long. -/
theorem address_counts {p r : List Char} (hl : (p ++ r).length < 2 ^ 32 - 1) :
    ((ofText (p ++ r)).address (p ++ r) (byteSize p)).position = counted p := by
  have hbound := counted_bound p
  rw [List.length_append] at hl
  rw [address_eq, position_counts, Address.ofCounts_eq]
  exact Position.address_position (by simp only [counted] at hbound ⊢; omega)
    (by simp only [counted] at hbound ⊢; omega)

theorem lineText_getElem? {c : Char} (hfeed : c ≠ '\n') (hreturn : c ≠ '\r') (p r : List Char) :
    ((ofText (p ++ c :: r)).lineText (p ++ c :: r) (counted p).line)[(counted p).column - 1]? =
      some c := by
  have hc : isLineEnd c = false := by simp [isLineEnd, hfeed, hreturn]
  obtain ⟨s, hs⟩ := lineText_at p hc r
  simp only [counted, Nat.add_sub_cancel, hs]
  rw [List.getElem?_append_right le_rfl, Nat.sub_self]
  rfl

end LineStarts

/-- The positions of a text are faithful addresses, in ascending order. At the end of each start of
the text, the index gives the line and the column that counting gives, and the same with a search by
halves and numbers of 32 bits; the longer start has the later position, so that no two of them share
one; and a character that ends no line is found again in the text of its line, at its column. -/
theorem positions_are_addresses {text : List Char} (hl : text.length < 2 ^ 32 - 1) :
    let index := LineStarts.ofText text
    (∀ u, u <+: text →
      index.position text (byteSize u) = ⟨u.count '\n' + 1, (lastLine u).length + 1⟩ ∧
      (index.address text (byteSize u)).position = index.position text (byteSize u)) ∧
    (∀ u v, u <+: text → v <+: text →
      ((index.position text (byteSize u)).Before (index.position text (byteSize v)) ↔
        byteSize u < byteSize v) ∧
      (index.position text (byteSize u) = index.position text (byteSize v) →
        byteSize u = byteSize v)) ∧
    ∀ u c, u ++ [c] <+: text → c ≠ '\n' → c ≠ '\r' →
      (index.lineText text (index.position text (byteSize u)).line)[
        (index.position text (byteSize u)).column - 1]? = some c := by
  intro index
  have hposition : ∀ u, u <+: text → index.position text (byteSize u) = counted u := by
    rintro u ⟨r, rfl⟩
    exact LineStarts.position_counts u r
  refine ⟨?_, ?_, ?_⟩
  · intro u hu
    refine ⟨hposition u hu, ?_⟩
    rw [hposition u hu]
    obtain ⟨r, rfl⟩ := hu
    exact LineStarts.address_counts hl
  · intro u v hu hv
    rw [hposition u hu, hposition v hv]
    refine ⟨counted_before_iff hu hv, fun heq => ?_⟩
    -- neither start is the longer one
    have hnot := (counted_before_iff hu hv).not.mp (heq ▸ Position.Before.irrefl _)
    have hnot' := (counted_before_iff hv hu).not.mp (heq ▸ Position.Before.irrefl _)
    omega
  · intro u c huc hfeed hreturn
    rw [hposition u ((List.prefix_append u [c]).trans huc)]
    obtain ⟨r, rfl⟩ := huc
    simp only [List.append_assoc, List.singleton_append, index]
    exact LineStarts.lineText_getElem? hfeed hreturn u r

/-- Behind a line with a carriage return and an empty one, the second character of a line. -/
theorem address_behind_empty_line :
    let text := ['a', '\r', '\n', '\n', 'é', 'b', '\r']
    let u := ['a', '\r', '\n', '\n', 'é']
    let index := LineStarts.ofText text
    text.length < 2 ^ 32 - 1 ∧ u ++ ['b'] <+: text ∧ index.position text (byteSize u) = ⟨3, 2⟩ ∧
      (index.address text (byteSize u)).position = ⟨3, 2⟩ ∧
      (index.position text 4).Before (index.position text (byteSize u)) ∧
      (index.lineText text 3)[1]? = some 'b' := by
  intro text u index
  have hl : text.length < 2 ^ 32 - 1 := by decide
  have hu : u <+: text := by decide
  have hb : u ++ ['b'] <+: text := by decide
  have hshort : ['a', '\r', '\n', '\n'] <+: text := by decide
  obtain ⟨hcounted, hordered, hfound⟩ := positions_are_addresses hl
  obtain ⟨hposition, haddress⟩ := hcounted u hu
  have hposition : index.position text (byteSize u) = ⟨3, 2⟩ := hposition
  have hline := hfound u 'b' hb (by decide) (by decide)
  rw [hposition] at haddress hline
  exact ⟨hl, hb, hposition, haddress, (hordered _ u hshort hu).1.mpr (by decide), hline⟩

end SparqlTokens.Text
