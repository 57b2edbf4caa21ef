import Mathlib.Data.List.TakeWhile
import SparqlTokens.Pattern.Symbol
import SparqlTokens.Proofs.Grammar.Building

/-! The symbols of a text do not depend on what follows it, unless a question mark does: it would
belong to the last symbol. Each reader is followed from the text alone to the text before another. -/
namespace SparqlTokens.Pattern.Symbol

variable {properties : Properties} {text rest more : List Char}

section While

variable {p : Char → Bool} {c : Char}

theorem behind_ne_nil (h : text.dropWhile p = c :: rest) : text.dropWhile p ≠ [] := by
  rw [h]
  exact List.cons_ne_nil _ _

theorem behind_suffix (h : text.dropWhile p = c :: rest) : rest <:+ text := by
  have hsuffix := text.dropWhile_suffix p
  rw [h] at hsuffix
  exact (List.suffix_cons c rest).trans hsuffix

theorem dropWhile_before (h : text.dropWhile p ≠ []) :
    (text ++ more).dropWhile p = text.dropWhile p ++ more := by
  induction text with
  | nil => exact absurd rfl h
  | cons c text ih =>
    rw [List.dropWhile_cons] at h
    rw [List.cons_append, List.dropWhile_cons, List.dropWhile_cons]
    split
    · next hc =>
      rw [if_pos hc] at h
      exact ih h
    · rfl

theorem takeWhile_before (h : text.dropWhile p ≠ []) :
    (text ++ more).takeWhile p = text.takeWhile p := by
  induction text with
  | nil => exact absurd rfl h
  | cons c text ih =>
    rw [List.dropWhile_cons] at h
    rw [List.cons_append, List.takeWhile_cons, List.takeWhile_cons]
    split
    · next hc =>
      rw [if_pos hc] at h
      rw [ih h]
    · rfl

end While

theorem cons_before {c d : Char} {r s : List Char} (h : ∀ t, c :: r ≠ d :: t) :
    ∀ t, c :: s ≠ d :: t := by
  intro t heq
  rw [(List.cons.inj heq).1] at h
  exact h r rfl

theorem ok_of_pair {α β ε : Type} {x : Except ε α} {a : α} {b r : β}
    (h : (do return (← x, r)) = Except.ok (a, b)) : x = .ok a ∧ r = b := by
  obtain ⟨a', hx, h⟩ := ok_of_bind h
  cases h
  exact ⟨hx, rfl⟩

/-! Escapes -/

theorem readHex_plain {count : ℕ} {c d : Char} (hd : d ≠ '\x7b') :
    readHex count (d :: text) = .ok (c, rest) ↔ hexChar? ((d :: text).take count) = some c ∧
      count ≤ (d :: text).length ∧ (d :: text).drop count = rest := by
  unfold readHex
  split
  · next heq => exact absurd (List.cons.inj heq).1 hd
  · split
    · next e he =>
      split
      · next hle =>
        simp only [he, hle, true_and, Option.some.injEq, Except.ok.injEq, Prod.mk.injEq]
      · next hle => simp only [hle, false_and, and_false, reduceCtorEq]
    · next he => simp [he]

theorem readHex_before {count : ℕ} {c : Char} (h : readHex count text = .ok (c, rest)) :
    readHex count (text ++ more) = .ok (c, rest ++ more) := by
  cases text with
  | nil =>
    simp only [readHex, List.take_nil] at h
    cases h
  | cons d text =>
    by_cases hd : d = '\x7b'
    · subst hd
      simp only [readHex] at h
      split at h
      · next d' e rest' hchar hdrop =>
        cases h
        have hne := behind_ne_nil hdrop
        rw [List.cons_append]
        simp only [readHex, takeWhile_before hne, dropWhile_before hne, hchar, hdrop,
          List.cons_append]
      · cases h
    · obtain ⟨hchar, hle, rfl⟩ := (readHex_plain hd).mp h
      rw [List.cons_append]
      apply (readHex_plain hd).mpr
      rw [← List.cons_append, List.take_append_of_le_length hle,
        List.drop_append_of_le_length hle, List.length_append]
      exact ⟨hchar, by omega, rfl⟩

theorem readHex_suffix {count : ℕ} {c : Char} (h : readHex count text = .ok (c, rest)) :
    rest <:+ text := by
  unfold readHex at h
  split at h
  · split at h
    · next hdrop =>
      cases h
      exact (behind_suffix hdrop).trans (List.suffix_cons _ _)
    · cases h
  · split at h
    · split at h
      · cases h
        exact List.drop_suffix _ _
      · cases h
    · cases h

theorem readProperty_before {negated : Bool} {s : CharSet}
    (h : readProperty properties negated text = .ok (s, rest)) :
    readProperty properties negated (text ++ more) = .ok (s, rest ++ more) := by
  unfold readProperty at h
  split at h
  · cases h
  · next r =>
    split at h
    · cases h
    · next hdrop =>
      obtain ⟨hs, rfl⟩ := ok_of_pair h
      have hne := behind_ne_nil hdrop
      rw [List.cons_append]
      simp only [readProperty, takeWhile_before hne, dropWhile_before hne, hdrop, hs]
      rfl
  · cases h
  · next hbrace hslash =>
    obtain ⟨hs, rfl⟩ := ok_of_pair h
    rw [List.cons_append, readProperty, hs]
    · rfl
    · exact hbrace
    · exact hslash

theorem readProperty_suffix {negated : Bool} {s : CharSet}
    (h : readProperty properties negated text = .ok (s, rest)) : rest <:+ text := by
  unfold readProperty at h
  split at h
  · cases h
  · split at h
    · cases h
    · next hdrop =>
      obtain ⟨_, rfl⟩ := ok_of_pair h
      exact (behind_suffix hdrop).trans (List.suffix_cons _ _)
  · cases h
  · obtain ⟨_, rfl⟩ := ok_of_pair h
    exact List.suffix_cons _ _

theorem readHexChar_ok {count : ℕ} {e : Escape} (h : readHexChar count text = .ok (e, rest)) :
    ∃ c, e = .char c ∧ readHex count text = .ok (c, rest) := by
  obtain ⟨⟨c, r⟩, hc, h⟩ := ok_of_bind h
  cases h
  exact ⟨c, rfl, hc⟩

theorem readHexChar_before {count : ℕ} {e : Escape}
    (h : readHexChar count text = .ok (e, rest)) :
    readHexChar count (text ++ more) = .ok (e, rest ++ more) := by
  obtain ⟨c, rfl, hc⟩ := readHexChar_ok h
  exact bind_ok (readHex_before hc)

theorem readClass_ok {negated : Bool} {e : Escape}
    (h : readClass properties negated text = .ok (e, rest)) :
    ∃ s, e = .set s ∧ readProperty properties negated text = .ok (s, rest) := by
  obtain ⟨⟨s, r⟩, hs, h⟩ := ok_of_bind h
  cases h
  exact ⟨s, rfl, hs⟩

theorem readClass_before {negated : Bool} {e : Escape}
    (h : readClass properties negated text = .ok (e, rest)) :
    readClass properties negated (text ++ more) = .ok (e, rest ++ more) := by
  obtain ⟨s, rfl, hs⟩ := readClass_ok h
  exact bind_ok (readProperty_before hs)

theorem readEscape_before {e : Escape} (h : readEscape properties text = .ok (e, rest)) :
    readEscape properties (text ++ more) = .ok (e, rest ++ more) := by
  unfold readEscape at h
  split at h
  · cases h
  · exact readHexChar_before h
  · exact readHexChar_before h
  · exact readHexChar_before h
  · exact readClass_before h
  · exact readClass_before h
  · obtain ⟨he, rfl⟩ := ok_of_pair h
    rw [List.cons_append, readEscape, he]
    · rfl
    all_goals assumption

theorem readEscape_suffix {e : Escape} (h : readEscape properties text = .ok (e, rest)) :
    rest <:+ text := by
  have hex : ∀ {count r} {c : Char}, readHexChar count r = .ok (e, rest) → rest <:+ c :: r := by
    intro count r c h
    obtain ⟨c, rfl, hc⟩ := readHexChar_ok h
    exact (readHex_suffix hc).trans (List.suffix_cons _ _)
  have named : ∀ {negated r} {c : Char}, readClass properties negated r = .ok (e, rest) →
      rest <:+ c :: r := by
    intro negated r c h
    obtain ⟨s, rfl, hs⟩ := readClass_ok h
    exact (readProperty_suffix hs).trans (List.suffix_cons _ _)
  unfold readEscape at h
  split at h
  · cases h
  · exact hex h
  · exact hex h
  · exact hex h
  · exact named h
  · exact named h
  · obtain ⟨_, rfl⟩ := ok_of_pair h
    exact List.suffix_cons _ _

/-! Sets -/

theorem readMember_before {e : Escape} (h : readMember properties text = .ok (e, rest)) :
    readMember properties (text ++ more) = .ok (e, rest ++ more) := by
  unfold readMember at h
  split at h
  · cases h
  · exact readEscape_before h
  · next hc =>
    cases h
    rw [List.cons_append, readMember]
    exact hc

theorem readMember_suffix {e : Escape} (h : readMember properties text = .ok (e, rest)) :
    rest <:+ text := by
  unfold readMember at h
  split at h
  · cases h
  · exact (readEscape_suffix h).trans (List.suffix_cons _ _)
  · cases h
    exact List.suffix_cons _ _

/-- What a range that was read is made of. -/
theorem readRange_ok {lo : Escape} {s : CharSet}
    (h : readRange properties lo text = .ok (s, rest)) :
    ∃ a e b, lo.toChar = .ok a ∧ readMember properties text = .ok (e, rest) ∧
      e.toChar = .ok b ∧ a ≤ b ∧ s = .range a b := by
  obtain ⟨a, ha, h⟩ := ok_of_bind h
  obtain ⟨⟨e, r⟩, he, h⟩ := ok_of_bind h
  obtain ⟨b, hb, h⟩ := ok_of_bind h
  split at h
  · next hle =>
    cases h
    exact ⟨a, e, b, ha, he, hb, hle, rfl⟩
  · cases h

theorem readRange_before {lo : Escape} {s : CharSet}
    (h : readRange properties lo text = .ok (s, rest)) :
    readRange properties lo (text ++ more) = .ok (s, rest ++ more) := by
  obtain ⟨a, e, b, ha, he, hb, hle, rfl⟩ := readRange_ok h
  unfold readRange
  rw [bind_ok ha, bind_ok (readMember_before he)]
  dsimp only
  rw [bind_ok hb, if_pos hle]

/-- Members are told from the text alone if something of it is left behind them. -/
theorem readMembers_before {s : CharSet} (h : readMembers properties text = .ok (s, rest))
    (hne : rest ≠ []) : readMembers properties (text ++ more) = .ok (s, rest ++ more) := by
  unfold readMembers at h ⊢
  obtain ⟨⟨lo, r⟩, hlo, h⟩ := ok_of_bind h
  rw [bind_ok (readMember_before hlo)]
  dsimp only at h ⊢
  split at h
  · obtain ⟨hs, rfl⟩ := ok_of_pair h
    exact bind_ok hs
  · obtain ⟨hs, rfl⟩ := ok_of_pair h
    exact bind_ok hs
  · next t hclose hhyphen =>
    obtain ⟨_, _, _, _, hhi, _⟩ := readRange_ok h
    cases t with
    | nil => cases hhi
    | cons e t =>
      split
      · next heq =>
        cases heq
        exact absurd rfl (hclose t)
      · next heq =>
        cases heq
        exact absurd rfl (hhyphen t)
      · next heq =>
        cases heq
        exact readRange_before h
      · next heq => exact absurd rfl (heq _)
  · next hnot =>
    obtain ⟨hs, rfl⟩ := ok_of_pair h
    obtain ⟨e, t, rfl⟩ := List.exists_cons_of_ne_nil hne
    have hhyphen : ∀ r, e :: (t ++ more) ≠ '-' :: r := cons_before hnot
    rw [List.cons_append]
    split
    · exact bind_ok hs
    · exact bind_ok hs
    · next heq => exact absurd heq (hhyphen _)
    · exact bind_ok hs

/-- What was read is one member, or the range that it begins. -/
theorem readMembers_ok {s : CharSet} (h : readMembers properties text = .ok (s, rest)) :
    ∃ lo r, readMember properties text = .ok (lo, r) ∧
      ((lo.toSet = .ok s ∧ r = rest) ∨
        ∃ t, r = '-' :: t ∧ readRange properties lo t = .ok (s, rest)) := by
  unfold readMembers at h
  obtain ⟨⟨lo, r⟩, hlo, h⟩ := ok_of_bind h
  refine ⟨lo, r, hlo, ?_⟩
  dsimp only at h
  split at h
  · exact Or.inl (ok_of_pair h)
  · exact Or.inl (ok_of_pair h)
  · exact Or.inr ⟨_, rfl, h⟩
  · exact Or.inl (ok_of_pair h)

theorem readMembers_suffix {s : CharSet} (h : readMembers properties text = .ok (s, rest)) :
    rest <:+ text := by
  obtain ⟨lo, r, hlo, ⟨_, rfl⟩ | ⟨t, rfl, hrange⟩⟩ := readMembers_ok h
  · exact readMember_suffix hlo
  · obtain ⟨_, _, _, _, hhi, _⟩ := readRange_ok hrange
    exact ((readMember_suffix hhi).trans (List.suffix_cons _ _)).trans (readMember_suffix hlo)

theorem hyphens_before {o : OpenSet} (h : (leadingMembers.hyphens o text).2 ≠ []) :
    leadingMembers.hyphens o (text ++ more) =
      ((leadingMembers.hyphens o text).1, (leadingMembers.hyphens o text).2 ++ more) := by
  fun_induction leadingMembers.hyphens o text with
  | case1 o r ih => exact ih h
  | case2 o r hr =>
    obtain ⟨e, t, rfl⟩ := List.exists_cons_of_ne_nil h
    rw [List.cons_append, leadingMembers.hyphens]
    exact cons_before hr

theorem leadingMembers_before {o : OpenSet} (h : (leadingMembers o text).2 ≠ []) :
    leadingMembers o (text ++ more) =
      ((leadingMembers o text).1, (leadingMembers o text).2 ++ more) := by
  unfold leadingMembers at h
  split at h
  · exact hyphens_before h
  · rfl
  · next hhyphen hclose =>
    obtain ⟨e, t, rfl⟩ := List.exists_cons_of_ne_nil h
    have hrest : ∀ t', leadingMembers o (e :: t') = (o, e :: t') := by
      intro t'
      rw [leadingMembers]
      · exact cons_before hhyphen
      · exact cons_before hclose
    rw [List.cons_append, hrest, hrest, List.cons_append]

theorem leadingMembers_suffix (o : OpenSet) (text : List Char) :
    (leadingMembers o text).2 <:+ text := by
  have hyphens : ∀ o text, (leadingMembers.hyphens o text).2 <:+ text := by
    intro o text
    fun_induction leadingMembers.hyphens o text with
    | case1 o r ih => exact ih.trans (List.suffix_cons _ _)
    | case2 => exact List.suffix_rfl
  unfold leadingMembers
  split
  · exact (hyphens _ _).trans (List.suffix_cons _ _)
  · exact List.suffix_cons _ _
  · exact List.suffix_rfl

theorem openSet_before (h : (openSet text).2 ≠ []) :
    openSet (text ++ more) = ((openSet text).1, (openSet text).2 ++ more) := by
  have hother : ∀ t, (∀ r, t ≠ '^' :: r) → openSet t = leadingMembers { negated := false } t := by
    intro t ht
    rw [openSet]
    exact ht
  by_cases hcaret : ∃ r, text = '^' :: r
  · obtain ⟨r, rfl⟩ := hcaret
    exact leadingMembers_before h
  · have hnot : ∀ r, text ≠ '^' :: r := fun r heq => hcaret ⟨r, heq⟩
    rw [hother text hnot] at h ⊢
    cases text with
    | nil => exact absurd rfl h
    | cons e t =>
      rw [hother]
      · exact leadingMembers_before h
      · exact cons_before hnot

theorem openSet_suffix (text : List Char) : (openSet text).2 <:+ text := by
  unfold openSet
  split
  · exact (leadingMembers_suffix _ _).trans (List.suffix_cons _ _)
  · exact leadingMembers_suffix _ _

/-- Whether a bracket begins a class is told from the text alone if a closing bracket is in it. -/
theorem bracketClass?_before (h : ']' ∈ text) :
    bracketClass? (text ++ more) = (bracketClass? text).map fun p => (p.1, p.2 ++ more) := by
  have hne : text.dropWhile (fun c => decide (c ≠ ']')) ≠ [] := by
    rw [Ne, List.dropWhile_eq_nil_iff]
    exact fun hall => absurd (hall ']' h) (by decide)
  unfold bracketClass?
  rw [dropWhile_before hne, takeWhile_before hne]
  split
  · next heq => exact absurd (List.append_eq_nil_iff.mp heq).1 hne
  · next heq =>
    obtain ⟨e, t, ht⟩ := List.exists_cons_of_ne_nil hne
    rw [ht] at heq ⊢
    cases heq
    rw [Option.map_map]
    rfl

theorem bracketClass?_closes {s : CharSet} (h : bracketClass? text = some (s, rest)) :
    ']' ∈ text := by
  by_contra hnot
  have hall : ∀ c ∈ text, decide (c ≠ ']') = true := by
    intro c hc
    rw [decide_eq_true_iff]
    rintro rfl
    exact hnot hc
  unfold bracketClass? at h
  rw [List.dropWhile_eq_nil_iff.mpr hall] at h
  cases h

theorem readSet_nonempty {bound : ℕ} {o : OpenSet} {outer : List OpenSet} {w : WrittenSet}
    (h : readSet properties bound o outer text = .ok (w, rest)) : text ≠ [] := by
  rintro rfl
  cases bound with
  | zero => cases h
  | succ bound => cases h

/-- A set that was read to its end has a closing bracket. -/
theorem readSet_closes {bound : ℕ} {o : OpenSet} {outer : List OpenSet} {w : WrittenSet}
    (h : readSet properties bound o outer text = .ok (w, rest)) : ']' ∈ text := by
  induction bound generalizing o outer text with
  | zero => cases h
  | succ bound ih =>
    unfold readSet at h
    split at h
    · next heq => cases heq
    · cases h
    · exact List.mem_cons_self
    · next heq =>
      cases heq
      split at h
      · next hclass => exact List.mem_cons_of_mem _ (bracketClass?_closes hclass)
      · exact List.mem_cons_of_mem _ ((openSet_suffix _).subset (ih h))
    · next heq =>
      cases heq
      exact List.mem_cons_of_mem _ (List.mem_cons_of_mem _ (ih h))
    · next heq =>
      cases heq
      exact List.mem_cons_of_mem _ (List.mem_cons_of_mem _ (ih h))
    · next heq =>
      cases heq
      exact List.mem_cons_of_mem _ (List.mem_cons_of_mem _ (ih h))
    · next heq _ _ _ _ _ _ =>
      cases heq
      obtain ⟨⟨s, r⟩, hs, hnext⟩ := ok_of_bind h
      exact (readMembers_suffix hs).subset (ih hnext)

theorem readMembers_one {e : Char} {s : CharSet} (h : readMembers properties [e] = .ok (s, rest)) :
    rest = [] := by
  obtain ⟨lo, r, hlo, hrest⟩ := readMembers_ok h
  have hnil : r = [] := by
    unfold readMember at hlo
    split at hlo
    · cases hlo
    · next heq =>
      cases heq
      cases hlo
    · next heq =>
      cases heq
      cases hlo
      rfl
  obtain ⟨_, rfl⟩ | ⟨t, ht, _⟩ := hrest
  · exact hnil
  · rw [hnil] at ht
    cases ht

theorem readSet_before {bound : ℕ} {o : OpenSet} {outer : List OpenSet} {w : WrittenSet}
    (h : readSet properties bound o outer text = .ok (w, rest)) {bound' : ℕ} (hb : bound ≤ bound') :
    readSet properties bound' o outer (text ++ more) = .ok (w, rest ++ more) := by
  induction bound generalizing o outer text bound' with
  | zero => cases h
  | succ bound ih =>
    obtain ⟨m, rfl⟩ : ∃ m, bound' = m + 1 := ⟨bound' - 1, by omega⟩
    have hm : bound ≤ m := Nat.le_of_succ_le_succ hb
    unfold readSet at h
    split at h
    · next heq => cases heq
    · cases h
    · next heq =>
      cases heq
      split at h
      · cases h
        rfl
      · exact ih h hm
    · next heq =>
      cases heq
      split at h
      · next hclass =>
        rw [List.cons_append, readSet, bracketClass?_before (bracketClass?_closes hclass), hclass]
        exact ih h hm
      · next hclass =>
        have hclose := (openSet_suffix _).subset (readSet_closes h)
        rw [List.cons_append, readSet, bracketClass?_before hclose, hclass,
          openSet_before (readSet_nonempty h)]
        exact ih h hm
    · next heq =>
      cases heq
      exact ih h hm
    · next heq =>
      cases heq
      exact ih h hm
    · next heq =>
      cases heq
      exact ih h hm
    · next b heq hnil hclose hopen hinter hdiff hsymm =>
      cases heq
      obtain ⟨⟨s, r⟩, hs, hnext⟩ := ok_of_bind h
      have hr : r ≠ [] := readSet_nonempty hnext
      obtain ⟨e, u, rfl⟩ := List.exists_cons_of_ne_nil hnil
      cases u with
      | nil => exact absurd (readMembers_one hs) hr
      | cons d u =>
        rw [List.cons_append, List.cons_append, readSet]
        · refine (bind_ok (readMembers_before hs hr)).trans ?_
          exact ih hnext hm
        · exact List.cons_ne_nil _ _
        · simpa using hclose
        · simpa using hopen
        · simpa using hinter
        · simpa using hdiff
        · simpa using hsymm

/-! Names of groups -/

theorem readName_before {name : List Char} (h : readName properties text = .ok (name, rest)) :
    readName properties (text ++ more) = .ok (name, rest ++ more) := by
  unfold readName at h
  split at h
  · next c cs _ r htake hdrop =>
    split at h
    · next hname =>
      cases h
      have hne := behind_ne_nil hdrop
      unfold readName
      simp only [takeWhile_before hne, dropWhile_before hne, htake, hdrop, List.cons_append]
      exact if_pos hname
    · cases h
  · cases h

theorem readNamed_before {s : Symbol} (h : readNamed properties text = .ok (s, rest)) :
    readNamed properties (text ++ more) = .ok (s, rest ++ more) := by
  obtain ⟨⟨name, r⟩, hname, h⟩ := ok_of_bind h
  cases h
  exact bind_ok (readName_before hname)

/-! Repetitions -/

theorem readCount_before {n : ℕ} (h : readCount text = .ok (n, rest)) (hne : rest ≠ []) :
    readCount (text ++ more) = .ok (n, rest ++ more) := by
  unfold readCount at h
  dsimp only at h
  split at h
  · cases h
  · next hok =>
    cases h
    have hdigits : (text.dropWhile isBlank).dropWhile Char.isDigit ≠ [] := by
      intro he
      rw [he] at hne
      exact hne rfl
    have hblank : text.dropWhile isBlank ≠ [] := by
      intro he
      rw [he] at hdigits
      exact hdigits rfl
    unfold readCount
    dsimp only
    rw [dropWhile_before hblank, takeWhile_before hdigits, dropWhile_before hdigits,
      dropWhile_before hne, if_neg hok]

variable (hmore : more.head? ≠ some '?')

theorem lazyMark_other (h : text.head? ≠ some '?') : lazyMark text = (true, text) := by
  rw [lazyMark]
  rintro r rfl
  exact h rfl

include hmore in
theorem repetition_before {least : ℕ} {most : Option ℕ} {s : Symbol}
    (h : repetition least most text = .ok (s, rest)) :
    repetition least most (text ++ more) = .ok (s, rest ++ more) := by
  have hmark : lazyMark (text ++ more) = ((lazyMark text).1, (lazyMark text).2 ++ more) := by
    cases text with
    | nil => exact lazyMark_other hmore
    | cons c text =>
      by_cases hc : c = '?'
      · rw [hc]
        rfl
      · have hhead : ∀ t, (c :: t).head? ≠ some '?' := fun t he => hc (Option.some.inj he)
        rw [List.cons_append, lazyMark_other (hhead _), lazyMark_other (hhead _),
          List.cons_append]
  unfold repetition at h ⊢
  cases h
  rw [hmark]

include hmore in
theorem readCounts_before {s : Symbol} (h : readCounts text = .ok (s, rest)) :
    readCounts (text ++ more) = .ok (s, rest ++ more) := by
  unfold readCounts at h ⊢
  obtain ⟨⟨least, r⟩, hleast, hrest⟩ := ok_of_bind h
  dsimp only at hrest
  split at hrest
  · refine (bind_ok (readCount_before hleast (List.cons_ne_nil _ _))).trans ?_
    exact repetition_before hmore hrest
  · refine (bind_ok (readCount_before hleast (List.cons_ne_nil _ _))).trans ?_
    exact repetition_before hmore hrest
  · next t hclose =>
    refine (bind_ok (readCount_before hleast (List.cons_ne_nil _ _))).trans ?_
    obtain ⟨⟨most, r⟩, hmost, hend⟩ := ok_of_bind hrest
    dsimp only at hend
    split at hend
    · split at hend
      · next hle =>
        have ht : t ≠ [] := by
          rintro rfl
          cases hmost
        obtain ⟨e, u, rfl⟩ := List.exists_cons_of_ne_nil ht
        dsimp only
        split
        · next heq => exact absurd (List.cons.inj heq).1 (by decide)
        · next heq =>
          cases heq
          exact absurd rfl (hclose u)
        · next heq =>
          cases heq
          refine (bind_ok (readCount_before hmost (List.cons_ne_nil _ _))).trans ?_
          exact (if_pos hle).trans (repetition_before hmore hend)
        · next heq => exact absurd rfl (heq _)
      · cases hend
    · cases hend
  · cases hrest

include hmore in
theorem question_before (h : ∀ r, text ≠ '?' :: r) : ∀ r, text ++ more ≠ '?' :: r := by
  cases text with
  | nil =>
    rintro r rfl
    exact hmore rfl
  | cons c text => exact cons_before h

include hmore in
theorem read_before {c : Char} {s : Symbol} (h : read properties c text = .ok (s, rest)) :
    read properties c (text ++ more) = .ok (s, rest ++ more) := by
  unfold read at h
  split at h
  · obtain ⟨⟨e, r⟩, he, hrest⟩ := ok_of_bind h
    cases hrest
    exact bind_ok (readEscape_before he)
  · obtain ⟨⟨w, r⟩, hw, hrest⟩ := ok_of_bind h
    cases hrest
    have hset : readSet properties ((text ++ more).length + 1) (openSet (text ++ more)).1 []
        (openSet (text ++ more)).2 = .ok (w, rest ++ more) := by
      rw [openSet_before (readSet_nonempty hw)]
      exact readSet_before hw (by rw [List.length_append]; omega)
    exact bind_ok hset
  · cases h
    rfl
  · exact readNamed_before h
  · exact readNamed_before h
  · cases h
  · next hmark =>
    cases h
    have hnone : ∀ r, text ++ more ≠ '?' :: r := question_before hmore hmark
    rw [read]
    · exact fun r => hnone _
    · exact fun r => hnone _
    · exact fun r => hnone _
    · exact hnone
  · cases h
    rfl
  · cases h
    rfl
  · cases h
    rfl
  · cases h
    rfl
  · cases h
    rfl
  · exact repetition_before hmore h
  · exact repetition_before hmore h
  · exact repetition_before hmore h
  · exact readCounts_before hmore h
  · next hparen _ _ _ _ _ _ _ _ _ _ _ _ _ =>
    cases h
    rw [read]
    all_goals first
      | assumption
      | exact fun _ hc => absurd hc hparen

theorem readAllWith_mono {bound bound' : ℕ} (hb : bound ≤ bound') {symbols : List Symbol}
    (h : readAllWith properties bound text = .ok symbols) : readAllWith properties bound' text = .ok symbols := by
  induction bound generalizing text bound' symbols with
  | zero =>
    cases text with
    | nil => cases h; cases bound' <;> rfl
    | cons c r => cases h
  | succ bound ih =>
    obtain ⟨m, rfl⟩ : ∃ m, bound' = m + 1 := ⟨bound' - 1, by omega⟩
    cases text with
    | nil => exact h
    | cons c r =>
      rw [readAllWith] at h ⊢
      obtain ⟨⟨s, r'⟩, hs, hrest⟩ := ok_of_bind h
      obtain ⟨ss, hss, hend⟩ := ok_of_bind hrest
      cases hend
      rw [bind_ok hs]
      dsimp only
      rw [bind_ok (ih (Nat.le_of_succ_le_succ hb) hss)]
      rfl

include hmore in
theorem readAllWith_before {bound bound' : ℕ} (hb : bound + more.length ≤ bound')
    {symbols behind : List Symbol} (h : readAllWith properties bound text = .ok symbols)
    (hbehind : readAll properties more = .ok behind) :
    readAllWith properties bound' (text ++ more) = .ok (symbols ++ behind) := by
  induction bound generalizing text bound' symbols with
  | zero =>
    cases text with
    | nil =>
      cases h
      exact readAllWith_mono (by omega) hbehind
    | cons c r => cases h
  | succ bound ih =>
    obtain ⟨m, rfl⟩ : ∃ m, bound' = m + 1 := ⟨bound' - 1, by omega⟩
    cases text with
    | nil =>
      cases h
      exact readAllWith_mono (by omega) hbehind
    | cons c r =>
      rw [readAllWith] at h
      obtain ⟨⟨s, r'⟩, hs, hrest⟩ := ok_of_bind h
      obtain ⟨ss, hss, hend⟩ := ok_of_bind hrest
      cases hend
      rw [List.cons_append, readAllWith, bind_ok (read_before hmore hs)]
      dsimp only
      rw [bind_ok (ih (by omega) hss)]
      rfl

include hmore in
theorem readAll_append {symbols behind : List Symbol} (h : readAll properties text = .ok symbols)
    (hbehind : readAll properties more = .ok behind) : readAll properties (text ++ more) = .ok (symbols ++ behind) :=
  readAllWith_before hmore (by rw [List.length_append]) h hbehind

end SparqlTokens.Pattern.Symbol
