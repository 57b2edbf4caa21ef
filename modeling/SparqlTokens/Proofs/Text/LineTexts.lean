import Mathlib.Data.List.DropRight
import SparqlTokens.Proofs.Text.Lines

/-! The text of a line. Around any place of a text, its line goes from behind the last line feed to
the next one; what the index of line starts gives for it leaves the carriage returns at its end
out. -/
namespace SparqlTokens.Text

/-- `line` is the line of a text with the number `n`, without the carriage returns at its end and the
line feed behind them. -/
structure IsLine (text : List Char) (n : ℕ) (line : List Char) : Prop where
  feed : '\n' ∉ line
  carriage : line.getLast? ≠ some '\r'
  parts : ∃ above returns below, text = above ++ line ++ returns ++ below ∧
    (above = [] ∨ above.getLast? = some '\n') ∧ above.count '\n' + 1 = n ∧
    (∀ c ∈ returns, c = '\r') ∧ (below = [] ∨ below.head? = some '\n')

theorem no_feed_lastLine (p : List Char) : '\n' ∉ lastLine p := by
  intro h
  have hkept := List.mem_takeWhile_imp (List.mem_reverse.mp h)
  exact absurd hkept (by decide)

theorem upToLastLine_end (p : List Char) :
    upToLastLine p = [] ∨ (upToLastLine p).getLast? = some '\n' := by
  induction p using List.reverseRecOn with
  | nil => exact Or.inl rfl
  | append_singleton p c ih =>
    rw [upToLastLine_concat]
    by_cases h : c = '\n'
    · rw [if_pos h, List.getLast?_concat, h]
      exact Or.inr rfl
    · rw [if_neg h]
      exact ih

theorem count_upToLastLine (p : List Char) : (upToLastLine p).count '\n' = p.count '\n' := by
  have hcount := congrArg (List.count '\n') (upToLastLine_append_lastLine p)
  rwa [List.count_append, List.count_eq_zero.mpr (no_feed_lastLine p), Nat.add_zero] at hcount

/-- A text goes on to the next line feed or to its end. -/
theorem split_at_feed (r : List Char) :
    ∃ t b, r = t ++ b ∧ '\n' ∉ t ∧ (b = [] ∨ b.head? = some '\n') := by
  by_cases h : '\n' ∈ r
  · obtain ⟨t, b, rfl, ht⟩ := List.eq_append_cons_of_mem h
    exact ⟨t, '\n' :: b, rfl, ht, Or.inr rfl⟩
  · exact ⟨r, [], (List.append_nil r).symm, h, Or.inl rfl⟩

/-- What is cut off the end of a text satisfies the condition it is cut by. -/
theorem exists_ending (ends : Char → Bool) (l : List Char) :
    ∃ s, l.rdropWhile ends ++ s = l ∧ ∀ c ∈ s, ends c = true := by
  refine ⟨(l.reverse.takeWhile ends).reverse, ?_, ?_⟩
  · rw [List.rdropWhile, ← List.reverse_append, List.takeWhile_append_dropWhile,
      List.reverse_reverse]
  · intro c hc
    exact List.mem_takeWhile_imp (List.mem_reverse.mp hc)

theorem last_stays (ends : Char → Bool) (l : List Char) {c : Char} (hc : ends c = true) :
    (l.rdropWhile ends).getLast? ≠ some c := by
  intro h
  have hne : l.rdropWhile ends ≠ [] := by
    intro hnil
    rw [hnil] at h
    cases h
  rw [List.getLast?_eq_some_getLast hne, Option.some.injEq] at h
  exact List.rdropWhile_last_not ends l hne (h ▸ hc)

theorem rdropWhile_behind {ends : Char → Bool} {u : List Char} {c : Char} (hc : ends c = false)
    (t : List Char) : ∃ s, (u ++ c :: t).rdropWhile ends = u ++ c :: s := by
  induction t using List.reverseRecOn with
  | nil => exact ⟨[], List.rdropWhile_concat_neg ends u c (by simp [hc])⟩
  | append_singleton t d ih =>
    rw [← List.cons_append, ← List.append_assoc]
    by_cases hd : ends d = true
    · rw [List.rdropWhile_concat_pos _ _ _ hd]
      exact ih
    · rw [List.rdropWhile_concat_neg _ _ _ hd, List.append_assoc]
      exact ⟨t ++ [d], rfl⟩

section Unique

variable {a b s u d : List Char}

/-- A text is taken apart in one way, if neither first part goes on to the other. -/
theorem parts_settle (hb : ∀ d, b = a ++ d → s = d ++ u → d = [])
    (ha : ∀ d, a = b ++ d → u = d ++ s → d = []) (h : a ++ s = b ++ u) : a = b ∧ s = u := by
  rcases List.append_eq_append_iff.mp h with ⟨d, hbd, hsd⟩ | ⟨d, had, hud⟩
  · have hnil := hb d hbd hsd
    subst hnil
    exact ⟨(hbd.trans (List.append_nil a)).symm, hsd⟩
  · have hnil := ha d had hud
    subst hnil
    exact ⟨had.trans (List.append_nil b), hud.symm⟩

/-- From the end of a line, a text goes on to the end of another only over a line feed. -/
theorem above_stops (hb : b = [] ∨ b.getLast? = some '\n') (hcount : b.count '\n' = a.count '\n')
    (hbd : b = a ++ d) : d = [] := by
  by_contra hd
  rcases hb with rfl | hb
  · exact hd (List.append_eq_nil_iff.mp hbd.symm).2
  · rw [hbd, List.getLast?_append_of_ne_nil a hd] at hb
    have hfed := List.count_pos_iff.mpr (List.mem_of_getLast? hb)
    rw [hbd, List.count_append] at hcount
    omega

/-- A text is taken apart in one way at the ends of as many lines. -/
theorem above_settles (ha : a = [] ∨ a.getLast? = some '\n') (hb : b = [] ∨ b.getLast? = some '\n')
    (hcount : a.count '\n' = b.count '\n') (h : a ++ s = b ++ u) : a = b ∧ s = u :=
  parts_settle (fun _ hd _ => above_stops hb hcount.symm hd)
    (fun _ hd _ => above_stops ha hcount hd) h

/-- Behind what ends before a character of a kind, a text goes on with one of that kind. -/
theorem line_stops {ends : Char → Prop} (hs : ∀ c ∈ s.head?, ends c) (hb : ∀ c ∈ b, ¬ ends c)
    (hbd : b = a ++ d) (hsd : s = d ++ u) : d = [] := by
  by_contra hd
  obtain ⟨c, r, rfl⟩ := List.exists_cons_of_ne_nil hd
  have hend := hs c (hsd ▸ rfl)
  exact hb c (hbd ▸ List.mem_append_right a List.mem_cons_self) hend

/-- Behind what carriage returns follow, a text goes on with one of them. -/
theorem returns_stop (hs : ∀ c ∈ s, c = '\r') (hb : b.getLast? ≠ some '\r') (hbd : b = a ++ d)
    (hsd : s = d ++ u) : d = [] := by
  by_contra hd
  have hreturn := hs (d.getLast hd) (hsd ▸ List.mem_append_left u (List.getLast_mem hd))
  rw [hbd, List.getLast?_append_of_ne_nil a hd, List.getLast?_eq_some_getLast hd, hreturn] at hb
  exact hb rfl

theorem IsLine.unique {text : List Char} {n : ℕ} {line line' : List Char} (h : IsLine text n line)
    (h' : IsLine text n line') : line = line' := by
  obtain ⟨above, returns, below, htext, habove, hn, hreturns, hbelow⟩ := h.parts
  obtain ⟨above', returns', below', htext', habove', hn', hreturns', hbelow'⟩ := h'.parts
  have hfed : ∀ {s : List Char}, (s = [] ∨ s.head? = some '\n') → ∀ c ∈ s.head?, c = '\n' := by
    rintro s (rfl | hs) c hc
    · cases hc
    · exact Option.some.inj (hc.symm.trans hs)
  have hfree : ∀ {l r : List Char}, '\n' ∉ l → (∀ c ∈ r, c = '\r') → ∀ c ∈ l ++ r, c ≠ '\n' := by
    rintro l r hl hr c hc rfl
    rcases List.mem_append.mp hc with hc | hc
    · exact hl hc
    · exact absurd (hr _ hc) (by decide)
  have hwhole : above ++ (line ++ returns ++ below) = above' ++ (line' ++ returns' ++ below') := by
    simpa only [List.append_assoc] using htext.symm.trans htext'
  have hcount : above.count '\n' = above'.count '\n' := by omega
  have hrest := (above_settles habove habove' hcount hwhole).2
  have hline := (parts_settle (fun _ => line_stops (hfed hbelow) (hfree h'.feed hreturns'))
    (fun _ => line_stops (hfed hbelow') (hfree h.feed hreturns)) hrest).1
  exact (parts_settle (fun _ => returns_stop hreturns h'.carriage)
    (fun _ => returns_stop hreturns' h.carriage) hline).1

end Unique

namespace LineStarts

section Around

variable (p : List Char) {t b : List Char}

theorem start_around (r : List Char) :
    (ofText (p ++ r)).starts[p.count '\n']? = some (byteSize (upToLastLine p)) := by
  rw [starts_split, ← last_start, List.getLast_eq_getElem,
    List.getElem?_append_left (by simp [length_afterFeeds])]
  simp [length_afterFeeds]

theorem afterFeeds_nil (offset : ℕ) (ht : '\n' ∉ t) : afterFeeds offset t = [] := by
  apply List.length_eq_zero_iff.mp
  rw [length_afterFeeds, List.count_eq_zero.mpr ht]

theorem next_start (ht : '\n' ∉ t) :
    (ofText (p ++ (t ++ '\n' :: b))).starts[p.count '\n' + 1]? =
      some (byteSize p + byteSize (t ++ ['\n'])) ∧
    (ofText (p ++ t)).starts[p.count '\n' + 1]? = none := by
  have hlength : (0 :: afterFeeds 0 p).length = p.count '\n' + 1 := by
    rw [List.length_cons, length_afterFeeds]
  constructor
  · rw [starts_split, List.getElem?_append_right hlength.le, hlength, Nat.sub_self,
      afterFeeds_append, afterFeeds_nil _ ht, afterFeeds, if_pos rfl, byteSize_append,
      byteSize_cons, lineFeed_size, byteSize_nil, Nat.add_assoc]
    rfl
  · rw [starts_split, List.getElem?_append_right hlength.le, hlength, Nat.sub_self,
      afterFeeds_nil _ ht]
    rfl

/-- The index finds the line around a place, from line feed to line feed, and cuts off its end. -/
theorem lineText_around (ht : '\n' ∉ t) (hb : b = [] ∨ b.head? = some '\n') :
    (ofText (p ++ (t ++ b))).lineText (p ++ (t ++ b)) (p.count '\n' + 1) =
      (lastLine p ++ t).rdropWhile isLineEnd := by
  have hsplit := upToLastLine_append_lastLine p
  have hsize : byteSize p = byteSize (upToLastLine p) + byteSize (lastLine p) := by
    rw [← byteSize_append, hsplit]
  -- the slice from the start of the line to the start of the next, or to the end
  have hslice : ∀ u v, slice? (byteSize (upToLastLine p)) (byteSize p + byteSize u)
      (p ++ (u ++ v)) = some (lastLine p ++ u) := by
    intro u v
    have hcut := slice?_between (upToLastLine p) (lastLine p ++ u) v
    rwa [byteSize_append, ← Nat.add_assoc, ← hsize, List.append_assoc (lastLine p),
      ← List.append_assoc, hsplit] at hcut
  rw [lineText, Nat.add_sub_cancel, start_around]
  rcases hb with rfl | hb
  · have hnone := (next_start p (b := []) ht).2
    have hend := hslice t []
    rw [List.append_nil] at hend ⊢
    simp only [List.getD_eq_getElem?_getD, hnone, Option.getD_none, byteSize_append, hend,
      Option.getD_some]
    rfl
  · cases b with
    | nil => cases hb
    | cons c b =>
      cases hb
      have hsome := (next_start p (b := b) ht).1
      have hfed := hslice (t ++ ['\n']) b
      rw [List.append_assoc, List.singleton_append] at hfed
      simp only [List.getD_eq_getElem?_getD, hsome, Option.getD_some, hfed]
      rw [← List.append_assoc]
      exact List.rdropWhile_concat_pos isLineEnd (lastLine p ++ t) '\n' rfl

/-- What the index gives for the line of a place is that line. -/
theorem lineText_isLine (r : List Char) :
    IsLine (p ++ r) (p.count '\n' + 1) ((ofText (p ++ r)).lineText (p ++ r) (p.count '\n' + 1)) := by
  obtain ⟨t, b, rfl, ht, hb⟩ := split_at_feed r
  rw [lineText_around p ht hb]
  obtain ⟨ends, hends, hall⟩ := exists_ending isLineEnd (lastLine p ++ t)
  have hfeed : '\n' ∉ lastLine p ++ t := by
    intro h
    exact (List.mem_append.mp h).elim (no_feed_lastLine p) ht
  refine ⟨?_, ?_, upToLastLine p, ends, b, ?_, upToLastLine_end p, ?_, ?_, hb⟩
  · intro h
    exact hfeed ((List.rdropWhile_prefix _ _).subset h)
  · exact last_stays isLineEnd _ rfl
  · rw [List.append_assoc (upToLastLine p), hends, ← List.append_assoc (upToLastLine p),
      upToLastLine_append_lastLine, List.append_assoc]
  · rw [count_upToLastLine]
  · intro c hc
    have hmem : c ∈ lastLine p ++ t := hends ▸ List.mem_append_right _ hc
    have hne : c ≠ '\n' := fun h => hfeed (h ▸ hmem)
    simpa [isLineEnd, hne] using hall c hc

/-- A character of the text that ends no line is in the text of its line, behind as many characters
as before. -/
theorem lineText_at {c : Char} (hc : isLineEnd c = false) (r : List Char) :
    ∃ s, (ofText (p ++ c :: r)).lineText (p ++ c :: r) (p.count '\n' + 1) =
      lastLine p ++ c :: s := by
  obtain ⟨t, b, rfl, ht, hb⟩ := split_at_feed r
  have hmore : '\n' ∉ c :: t := by
    intro h
    rcases List.mem_cons.mp h with rfl | h
    · cases hc
    · exact ht h
  obtain ⟨s, hs⟩ := rdropWhile_behind (u := lastLine p) hc t
  exact ⟨s, (lineText_around p hmore hb).trans hs⟩

end Around

end LineStarts

end SparqlTokens.Text
