import Mathlib.Data.List.Forall2
import SparqlTokens.Text.Quoted

/-! Quoted text can be read back. What stands for a character tells it, whatever follows, and does
not begin with a quote, so quoted text ends at the first quote that is no part of what stands for a
character. All of it can be seen. -/
namespace SparqlTokens.Text

/-! Texts written piece by piece -/

section Pieces

variable {α : Type*} {write : α → List Char} {same : α → α → Prop} {x y : List Char}

/-- Where the first of two pieces can be told whatever follows it, and none of them begins what
stands behind the last, all can be told. -/
theorem forall₂_of_pieces {as bs : List α}
    (hread : ∀ a ∈ as, ∀ b ∈ bs, ∀ s t, write a ++ s = write b ++ t → same a b ∧ s = t)
    (hx : ∀ b ∈ bs, ¬ write b <+: x) (hy : ∀ a ∈ as, ¬ write a <+: y)
    (h : as.flatMap write ++ x = bs.flatMap write ++ y) : List.Forall₂ same as bs ∧ x = y := by
  induction as generalizing bs with
  | nil =>
    cases bs with
    | nil => exact ⟨.nil, h⟩
    | cons b bs =>
      rw [List.flatMap_cons, List.append_assoc] at h
      exact absurd ⟨_, h.symm⟩ (hx b List.mem_cons_self)
  | cons a as ih =>
    rw [List.flatMap_cons, List.append_assoc] at h
    cases bs with
    | nil => exact absurd ⟨_, h⟩ (hy a List.mem_cons_self)
    | cons b bs =>
      rw [List.flatMap_cons, List.append_assoc] at h
      obtain ⟨hsame, hrest⟩ := hread a List.mem_cons_self b List.mem_cons_self _ _ h
      obtain ⟨hall, htail⟩ := ih
        (fun c hc d hd => hread c (List.mem_cons_of_mem a hc) d (List.mem_cons_of_mem b hd))
        (fun d hd => hx d (List.mem_cons_of_mem b hd))
        (fun c hc => hy c (List.mem_cons_of_mem a hc)) hrest
      exact ⟨.cons hsame hall, htail⟩

/-- A text is split in one way at the first place where a mark stands. -/
theorem split_at_mark {mark : Char} {u v : List Char} (hu : mark ∉ u) (hv : mark ∉ v)
    (h : u ++ mark :: x = v ++ mark :: y) : u = v ∧ x = y := by
  induction u generalizing v with
  | nil =>
    cases v with
    | nil => exact ⟨rfl, (List.cons.inj h).2⟩
    | cons d v =>
      have hd := (List.cons.inj h).1
      exact absurd (hd ▸ List.mem_cons_self) hv
  | cons c u ih =>
    cases v with
    | nil =>
      have hc := (List.cons.inj h).1
      exact absurd (hc ▸ List.mem_cons_self) hu
    | cons d v =>
      obtain ⟨hcd, hrest⟩ := List.cons.inj h
      obtain ⟨huv, hxy⟩ := ih (fun hm => hu (List.mem_cons_of_mem c hm))
        (fun hm => hv (List.mem_cons_of_mem d hm)) hrest
      exact ⟨by rw [hcd, huv], hxy⟩

end Pieces

/-! Digits -/

theorem mem_toDigits {b n : ℕ} {c : Char} (hb : 1 < b) (h : c ∈ Nat.toDigits b n) :
    ∃ d < b, c = d.digitChar := by
  induction n using Nat.strongRecOn with
  | ind n ih =>
    by_cases hn : n < b
    · rw [Nat.toDigits_of_lt_base hn] at h
      exact ⟨n, hn, List.mem_singleton.mp h⟩
    · have hle : b ≤ n := Nat.le_of_not_lt hn
      rw [Nat.toDigits_of_base_le hb hle] at h
      rcases List.mem_append.mp h with h | h
      · exact ih (n / b) (Nat.div_lt_self (by omega) hb) h
      · exact ⟨n % b, Nat.mod_lt n (by omega), List.mem_singleton.mp h⟩

theorem digitChar_inj : ∀ m < 16, ∀ n < 16, m.digitChar = n.digitChar → m = n := by
  decide

/-- Digits tell the number, up to base sixteen. The induction is on the number, from its last digit
on. -/
theorem toDigits_inj {b m n : ℕ} (hb : 1 < b) (hle : b ≤ 16)
    (h : Nat.toDigits b m = Nat.toDigits b n) : m = n := by
  have lone : ∀ k l : ℕ, k < b → b ≤ l → Nat.toDigits b k ≠ Nat.toDigits b l := by
    intro k l hk hl he
    rw [Nat.toDigits_of_base_le hb hl, Nat.toDigits_of_lt_base hk] at he
    have hlength := congrArg List.length he
    have hpos := Nat.length_toDigits_pos (b := b) (n := l / b)
    simp only [List.length_append, List.length_singleton] at hlength
    omega
  induction m using Nat.strongRecOn generalizing n with
  | ind m ih =>
    by_cases hm : m < b
    · by_cases hn : n < b
      · rw [Nat.toDigits_of_lt_base hm, Nat.toDigits_of_lt_base hn] at h
        exact digitChar_inj m (by omega) n (by omega) (List.cons.inj h).1
      · exact absurd h (lone m n hm (by omega))
    · by_cases hn : n < b
      · exact absurd h.symm (lone n m hn (by omega))
      · have hfirst : Nat.toDigits b m = Nat.toDigits b (m / b) ++ [(m % b).digitChar] :=
          Nat.toDigits_of_base_le hb (by omega)
        have hsecond : Nat.toDigits b n = Nat.toDigits b (n / b) ++ [(n % b).digitChar] :=
          Nat.toDigits_of_base_le hb (by omega)
        rw [hfirst, hsecond] at h
        obtain ⟨hfront, hdigit⟩ := List.append_inj' h rfl
        have hquotient := ih (m / b) (Nat.div_lt_self (by omega) hb) hfront
        have hm' := Nat.mod_lt m (show 0 < b by omega)
        have hn' := Nat.mod_lt n (show 0 < b by omega)
        have hrest := digitChar_inj (m % b) (by omega) (n % b) (by omega)
          (List.cons.inj hdigit).1
        rw [← Nat.div_add_mod m b, ← Nat.div_add_mod n b, hquotient, hrest]

/-! What stands for a character -/

/-- What stands behind a backslash for a character: a letter or sign, or its number. -/
inductive Escaped : Char → List Char → Prop where
  | letter {c l : Char} (h : escapeLetter? c = some l) : Escaped c [l]
  | number (c : Char) : Escaped c ('u' :: '{' :: hex c.toNat ++ ['}'])

theorem shown_cases (extenders : Bool) (c : Char) :
    (∃ u, Escaped c u ∧ shown extenders c = '\\' :: u) ∨
      (escapeLetter? c = none ∧ isPrintable c = true ∧ shown extenders c = [c]) := by
  rw [shown]
  cases hl : escapeLetter? c with
  | some l => exact Or.inl ⟨[l], .letter hl, rfl⟩
  | none =>
    by_cases hnumbered : ((extenders && isExtender c) || !isPrintable c) = true
    · exact Or.inl ⟨_, .number c, if_pos hnumbered⟩
    · have hprintable : isPrintable c = true := by
        simp only [Bool.or_eq_true, not_or] at hnumbered
        simpa using hnumbered.2
      exact Or.inr ⟨rfl, hprintable, if_neg hnumbered⟩

theorem escapeLetter?_cases {c l : Char} (h : escapeLetter? c = some l) :
    (c, l) ∈ [('\x00', '0'), ('\t', 't'), ('\r', 'r'), ('\n', 'n'), ('"', '"'), ('\\', '\\')] := by
  unfold escapeLetter? at h
  split at h
  all_goals cases h
  all_goals decide

theorem escapeLetter?_inj {c d l : Char} (hc : escapeLetter? c = some l)
    (hd : escapeLetter? d = some l) : c = d := by
  have hpairs := escapeLetter?_cases hc
  have hother := escapeLetter?_cases hd
  simp only [List.mem_cons, Prod.mk.injEq, List.not_mem_nil, or_false] at hpairs hother
  rcases hpairs with ⟨rfl, rfl⟩ | ⟨rfl, rfl⟩ | ⟨rfl, rfl⟩ | ⟨rfl, rfl⟩ | ⟨rfl, rfl⟩ | ⟨rfl, rfl⟩
  all_goals simpa [eq_comm] using hother

theorem escapeLetter?_ne {c l : Char} (h : escapeLetter? c = some l) : l ≠ 'u' := by
  rintro rfl
  exact absurd (escapeLetter?_cases h) (by simp)

theorem plain_ne {c : Char} (h : escapeLetter? c = none) : c ≠ '\\' ∧ c ≠ '"' := by
  constructor
  · rintro rfl
    cases h
  · rintro rfl
    cases h

theorem escaped_inj {c d : Char} {u v x y : List Char} (hc : Escaped c u) (hd : Escaped d v)
    (h : u ++ x = v ++ y) : c = d ∧ x = y := by
  have hbrace : ∀ n, '}' ∉ hex n := by
    intro n hn
    obtain ⟨m, hm, he⟩ := mem_toDigits (by omega) hn
    revert m
    decide
  cases hc with
  | letter hl =>
    cases hd with
    | letter hm =>
      obtain ⟨rfl, hrest⟩ := List.cons.inj h
      exact ⟨escapeLetter?_inj hl hm, hrest⟩
    | number => exact absurd (List.cons.inj h).1 (escapeLetter?_ne hl)
  | number =>
    cases hd with
    | letter hm => exact absurd (List.cons.inj h).1.symm (escapeLetter?_ne hm)
    | number =>
      simp only [List.cons_append, List.append_assoc, List.nil_append, List.cons.injEq,
        true_and] at h
      obtain ⟨hdigits, hrest⟩ := split_at_mark (hbrace _) (hbrace _) h
      exact ⟨Char.toNat_inj.mp (toDigits_inj (by omega) (Nat.le_refl 16) hdigits), hrest⟩

theorem shown_inj {extenders : Bool} {c d : Char} {x y : List Char}
    (h : shown extenders c ++ x = shown extenders d ++ y) : c = d ∧ x = y := by
  rcases shown_cases extenders c with ⟨u, hu, hc⟩ | ⟨hl, _, hc⟩
  · rcases shown_cases extenders d with ⟨v, hv, hd⟩ | ⟨hm, _, hd⟩
    · rw [hc, hd] at h
      exact escaped_inj hu hv (List.cons.inj h).2
    · rw [hc, hd] at h
      exact absurd (List.cons.inj h).1.symm (plain_ne hm).1
  · rcases shown_cases extenders d with ⟨v, _, hd⟩ | ⟨_, _, hd⟩
    · rw [hc, hd] at h
      exact absurd (List.cons.inj h).1 (plain_ne hl).1
    · rw [hc, hd] at h
      exact List.cons.inj h

theorem shown_head (extenders : Bool) (c : Char) (r : List Char) :
    ¬ shown extenders c <+: '"' :: r := by
  intro h
  rcases shown_cases extenders c with ⟨u, _, hc⟩ | ⟨hl, _, hc⟩
  · rw [hc] at h
    exact absurd (List.cons_prefix_cons.mp h).1 (by decide)
  · rw [hc] at h
    exact (plain_ne hl).2 (List.cons_prefix_cons.mp h).1

/-- Quoted text tells the text and where it ends, whatever follows. -/
theorem quoted_inj {u v x y : List Char} (h : quoted u ++ x = quoted v ++ y) : u = v ∧ x = y := by
  simp only [quoted, List.cons_append, List.append_assoc, List.nil_append, List.cons.injEq,
    true_and] at h
  obtain ⟨hsame, hrest⟩ := forall₂_of_pieces (fun _ _ _ _ _ _ => shown_inj)
    (fun c _ => shown_head true c x) (fun c _ => shown_head true c y) h
  exact ⟨List.forall₂_eq_eq_eq ▸ hsame, (List.cons.inj hrest).2⟩

/-! What can be seen -/

theorem ascii_apart :
    (unprintableRanges.all fun r => r.2 < 0x20 || 0x7e < r.1) = true := by
  decide +kernel

theorem ascii_printable {c : Char} (hl : 0x20 ≤ c.toNat) (hu : c.toNat ≤ 0x7e) :
    isPrintable c = true := by
  have hnone : (unprintableRanges.any fun r => r.1 ≤ c.toNat && c.toNat ≤ r.2) = false := by
    apply List.any_eq_false.mpr
    intro r hr hin
    have hapart := List.all_eq_true.mp ascii_apart r hr
    simp only [Bool.or_eq_true, Bool.and_eq_true, decide_eq_true_eq] at hin hapart
    omega
  rw [isPrintable, hnone]
  rfl

theorem digits_printable {d : ℕ} (h : d < 16) : isPrintable d.digitChar = true := by
  have hbounds : ∀ d < 16, 0x20 ≤ d.digitChar.toNat ∧ d.digitChar.toNat ≤ 0x7e := by decide
  exact ascii_printable (hbounds d h).1 (hbounds d h).2

theorem escaped_printable {c d : Char} {u : List Char} (hc : Escaped c u) (h : d ∈ u) :
    isPrintable d = true := by
  cases hc with
  | letter hl =>
    have hbounds : ∀ p ∈ [('\x00', '0'), ('\t', 't'), ('\r', 'r'), ('\n', 'n'), ('"', '"'),
        ('\\', '\\')], 0x20 ≤ p.2.toNat ∧ p.2.toNat ≤ 0x7e := by decide
    obtain ⟨hlow, hhigh⟩ := hbounds _ (escapeLetter?_cases hl)
    rw [List.mem_singleton.mp h]
    exact ascii_printable hlow hhigh
  | number =>
    by_cases hdigit : d ∈ hex c.toNat
    · obtain ⟨n, hn, rfl⟩ := mem_toDigits (by omega) hdigit
      exact digits_printable hn
    · have hsign : d = 'u' ∨ d = '{' ∨ d = '}' := by
        simpa [hdigit] using h
      rcases hsign with rfl | rfl | rfl
      all_goals exact ascii_printable (by decide) (by decide)

theorem shown_printable {extenders : Bool} {c d : Char} (h : d ∈ shown extenders c) :
    isPrintable d = true := by
  rcases shown_cases extenders c with ⟨u, hu, hc⟩ | ⟨_, hprintable, hc⟩
  · rw [hc] at h
    rcases List.mem_cons.mp h with rfl | h
    · exact ascii_printable (by decide) (by decide)
    · exact escaped_printable hu h
  · rw [hc] at h
    rw [List.mem_singleton.mp h, hprintable]

theorem quoted_printable {u : List Char} {d : Char} (h : d ∈ quoted u) : isPrintable d = true := by
  have hquote : isPrintable '"' = true := ascii_printable (by decide) (by decide)
  rcases List.mem_append.mp h with h | h
  · rcases List.mem_cons.mp h with rfl | h
    · exact hquote
    · obtain ⟨c, _, hc⟩ := List.mem_flatMap.mp h
      exact shown_printable hc
  · rw [List.mem_singleton.mp h, hquote]

end SparqlTokens.Text
