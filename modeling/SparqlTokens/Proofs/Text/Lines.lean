import SparqlTokens.Text.Place
import Mathlib.Data.List.Induction
import Mathlib.Order.Nat

/-! Lines and columns by counting: the line of a place is one more than the line feeds before it,
and its column one more than the characters behind the last of them. A place that is moved over a
text and the index of line starts both agree with the count. -/
namespace SparqlTokens.Text

theorem byteSize_mono {u v : List Char} (h : u <+: v) : byteSize u ≤ byteSize v := by
  obtain ⟨r, rfl⟩ := h
  rw [byteSize_append]
  exact Nat.le_add_right _ _

theorem byteSize_pos {w : List Char} (h : w ≠ []) : 0 < byteSize w := by
  obtain ⟨c, r, rfl⟩ := List.exists_cons_of_ne_nil h
  have hpos := c.utf8Size_pos
  rw [byteSize_cons]
  omega

theorem slice?_between (p u r : List Char) :
    slice? (byteSize p) (byteSize p + byteSize u) (p ++ (u ++ r)) = some u := by
  rw [slice?, if_pos (Nat.le_add_right _ _), dropBytes?_byteSize_append, Option.bind_some,
    Nat.add_sub_cancel_left]
  exact takeBytes?_byteSize_append u r

def lastLine (p : List Char) : List Char := (p.reverse.takeWhile (· ≠ '\n')).reverse

def upToLastLine (p : List Char) : List Char := (p.reverse.dropWhile (· ≠ '\n')).reverse

theorem upToLastLine_append_lastLine (p : List Char) : upToLastLine p ++ lastLine p = p := by
  rw [upToLastLine, lastLine, ← List.reverse_append, List.takeWhile_append_dropWhile,
    List.reverse_reverse]

theorem slice?_lastLine (p r : List Char) :
    slice? (byteSize (upToLastLine p)) (byteSize p) (p ++ r) = some (lastLine p) := by
  have hcut := slice?_between (upToLastLine p) (lastLine p) r
  rwa [← byteSize_append, ← List.append_assoc, upToLastLine_append_lastLine] at hcut

theorem lastLine_concat (p : List Char) (c : Char) :
    lastLine (p ++ [c]) = if c = '\n' then [] else lastLine p ++ [c] := by
  by_cases h : c = '\n' <;> simp [lastLine, h]

theorem upToLastLine_concat (p : List Char) (c : Char) :
    upToLastLine (p ++ [c]) = if c = '\n' then p ++ [c] else upToLastLine p := by
  by_cases h : c = '\n' <;> simp [upToLastLine, h]

def counted (p : List Char) : Position := ⟨p.count '\n' + 1, (lastLine p).length + 1⟩

theorem lineFeed_size : Char.utf8Size '\n' = 1 := by decide

/-- The moved place counts. The induction takes the last character away, since the column depends
on what stands at the end. -/
theorem advance_counts (p : List Char) :
    Place.advance {} p = ⟨byteSize p, (counted p).line, (counted p).column⟩ := by
  induction p using List.reverseRecOn with
  | nil => rfl
  | append_singleton p c ih =>
    rw [Place.advance_append, ih]
    by_cases h : c = '\n'
    · subst h
      simp [Place.step, counted, lastLine_concat]
    · simp [Place.step, counted, lastLine_concat, h]

namespace LineStarts

theorem afterFeeds_append (offset : ℕ) (p r : List Char) :
    afterFeeds offset (p ++ r) = afterFeeds offset p ++ afterFeeds (offset + byteSize p) r := by
  induction p generalizing offset with
  | nil => simp [afterFeeds]
  | cons c p ih =>
    by_cases h : c = '\n'
    · subst h
      simp only [List.cons_append, afterFeeds, if_true, ih, byteSize_cons, lineFeed_size,
        Nat.add_assoc]
    · simp only [List.cons_append, afterFeeds, h, if_false, ih, byteSize_cons, Nat.add_assoc]

theorem length_afterFeeds (offset : ℕ) (p : List Char) :
    (afterFeeds offset p).length = p.count '\n' := by
  induction p generalizing offset with
  | nil => rfl
  | cons c p ih => by_cases h : c = '\n' <;> simp [afterFeeds, h, ih]

theorem afterFeeds_bounds {offset n : ℕ} {p : List Char} (h : n ∈ afterFeeds offset p) :
    offset < n ∧ n ≤ offset + byteSize p := by
  induction p generalizing offset with
  | nil => cases h
  | cons c p ih =>
    by_cases hc : c = '\n'
    · subst hc
      simp only [afterFeeds, if_true, List.mem_cons] at h
      simp only [byteSize_cons, lineFeed_size]
      rcases h with rfl | h
      · omega
      · have := ih h; omega
    · simp only [afterFeeds, hc, if_false] at h
      have := ih h
      simp only [byteSize_cons]; omega

theorem last_start (p : List Char) :
    (0 :: afterFeeds 0 p).getLast (List.cons_ne_nil _ _) = byteSize (upToLastLine p) := by
  induction p using List.reverseRecOn with
  | nil => rfl
  | append_singleton p c ih =>
    simp only [afterFeeds_append, upToLastLine_concat]
    by_cases h : c = '\n'
    · subst h
      simp only [afterFeeds, if_true, ← List.cons_append, List.getLast_concat, byteSize_append,
        byteSize_cons, byteSize_nil, lineFeed_size, Nat.zero_add, Nat.add_zero]
    · simpa [afterFeeds, h] using ih

theorem starts_split (p r : List Char) :
    (ofText (p ++ r)).starts = (0 :: afterFeeds 0 p) ++ afterFeeds (byteSize p) r := by
  simp [ofText, afterFeeds_append]

theorem lineOf_counts (p r : List Char) :
    (ofText (p ++ r)).lineOf (byteSize p) = p.count '\n' := by
  have before : (0 :: afterFeeds 0 p).filter (· ≤ byteSize p) = 0 :: afterFeeds 0 p := by
    apply List.filter_eq_self.mpr
    intro n hn
    rcases List.mem_cons.mp hn with rfl | hn
    · simp
    · simpa using (afterFeeds_bounds hn).2
  have behind : (afterFeeds (byteSize p) r).filter (· ≤ byteSize p) = [] := by
    apply List.filter_eq_nil_iff.mpr
    intro n hn
    have := (afterFeeds_bounds hn).1
    simp only [decide_eq_true_eq]; omega
  rw [lineOf, starts_split, List.filter_append, before, behind]
  simp [length_afterFeeds]

theorem startOf_counts (p r : List Char) :
    (ofText (p ++ r)).startOf (p.count '\n') = byteSize (upToLastLine p) := by
  rw [startOf, starts_split, ← last_start, List.getLast_eq_getElem, List.getD_eq_getElem?_getD,
    List.getElem?_append_left (by simp [length_afterFeeds])]
  simp [length_afterFeeds]

/-- The index finds the counted position at every offset between two characters. -/
theorem position_counts (p r : List Char) :
    (ofText (p ++ r)).position (p ++ r) (byteSize p) = counted p := by
  have hmin : min (byteSize p) (byteSize (p ++ r)) = byteSize p := by
    rw [byteSize_append]; omega
  simp only [position, hmin, lineOf_counts, startOf_counts, slice?_lastLine, counted]

/-- The moved place and the index never drift apart. -/
theorem position_advance (p r : List Char) :
    (ofText (p ++ r)).position (p ++ r) (byteSize p) = (Place.advance {} p).position := by
  rw [position_counts, advance_counts]; rfl

end LineStarts

/-- Counters of 32 bits do not overflow on a text of fewer than 2^32 - 1 characters. -/
theorem counted_bound (p : List Char) :
    (counted p).line ≤ p.length + 1 ∧ (counted p).column ≤ p.length + 1 := by
  have hfeeds := List.count_le_length (a := '\n') (l := p)
  have hlast := congrArg List.length (upToLastLine_append_lastLine p)
  simp only [List.length_append] at hlast
  simp only [counted]
  omega

end SparqlTokens.Text
