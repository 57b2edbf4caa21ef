import Mathlib.Data.List.Basic
import SparqlTokens.Proofs.Number.Doubles

/-! Reading doubles. A text of digits with a point in, before or behind them, and an exponent behind
that, is read as a number, with a sign before it or without. -/
namespace SparqlTokens.Number

def Digits (text : List Char) : Prop := ∀ c ∈ text, isDigit c = true

def signs : List (List Char) := [[], ['+'], ['-']]

def IsExponent (text : List Char) : Prop :=
  ∃ e sign digits, text = e :: (sign ++ digits) ∧ (e = 'e' ∨ e = 'E') ∧ sign ∈ signs ∧
    digits ≠ [] ∧ Digits digits

/-- Digits and a point, or digits alone, before an exponent. -/
def IsScientific (text : List Char) : Prop :=
  ∃ whole fraction rest, Digits whole ∧ Digits fraction ∧ (whole ≠ [] ∨ fraction ≠ []) ∧
    IsExponent rest ∧
    (text = whole ++ '.' :: (fraction ++ rest) ∨ fraction = [] ∧ text = whole ++ rest)

theorem not_sign_of_digit {c : Char} (h : isDigit c = true) : c ≠ '-' ∧ c ≠ '+' := by
  constructor
  · rintro rfl
    exact absurd h (by decide)
  · rintro rfl
    exact absurd h (by decide)

theorem splitSign_bare {c : Char} {r : List Char} (h : c ≠ '-' ∧ c ≠ '+') :
    splitSign (c :: r) = (false, c :: r) := by
  unfold splitSign
  split
  · next heq => exact absurd (List.cons.inj heq).1 h.1
  · next heq => exact absurd (List.cons.inj heq).1 h.2
  · rfl

theorem splitSign_signed {sign : List Char} (hs : sign ∈ signs) {c : Char} {r : List Char}
    (h : c ≠ '-' ∧ c ≠ '+') : (splitSign (sign ++ c :: r)).2 = c :: r := by
  simp only [signs, List.mem_cons, List.not_mem_nil, or_false] at hs
  rcases hs with rfl | rfl | rfl
  · rw [List.nil_append, splitSign_bare h]
  · rfl
  · rfl

theorem exponent?_isSome {text : List Char} (h : IsExponent text) : (exponent? text).isSome := by
  obtain ⟨e, sign, digits, rfl, he, hs, hne, hdigits⟩ := h
  obtain ⟨c, r, rfl⟩ := List.exists_cons_of_ne_nil hne
  have hsplit := splitSign_signed hs (r := r) (not_sign_of_digit (hdigits c List.mem_cons_self))
  have hall : (c :: r).all isDigit = true := List.all_eq_true.mpr hdigits
  rw [exponent?, if_pos he]
  rcases hsign : splitSign (sign ++ c :: r) with ⟨negative, digits⟩
  rw [hsign] at hsplit
  subst hsplit
  simp only [List.isEmpty_cons, hall, Bool.not_true, Bool.or_false, Bool.false_eq_true, if_false]
  rfl

theorem takeWhile_digits {u r : List Char} {d : Char} (hu : Digits u) (hd : isDigit d = false) :
    (u ++ d :: r).takeWhile isDigit = u ∧ (u ++ d :: r).dropWhile isDigit = d :: r := by
  constructor
  · rw [List.takeWhile_append_of_pos hu, List.takeWhile_cons_of_neg (by simp [hd]),
      List.append_nil]
  · rw [List.dropWhile_append_of_pos hu, List.dropWhile_cons_of_neg (by simp [hd])]

theorem exponent_head {text : List Char} (h : IsExponent text) :
    ∃ e r, text = e :: r ∧ isDigit e = false ∧ e ≠ '.' := by
  obtain ⟨e, sign, digits, rfl, rfl | rfl, _⟩ := h
  · exact ⟨'e', _, rfl, by decide, by decide⟩
  · exact ⟨'E', _, rfl, by decide, by decide⟩

theorem decimal?_isSome {text v : List Char} (hsplit : (splitSign text).2 = v)
    (hv : IsScientific v) : (decimal? text).isSome := by
  obtain ⟨whole, fraction, rest, hwhole, hfraction, hne, hrest, hform⟩ := hv
  obtain ⟨e, r, rfl, hdigit, hpoint⟩ := exponent_head hrest
  have hsome := exponent?_isSome hrest
  unfold decimal?
  rcases hsign : splitSign text with ⟨negative, w⟩
  rw [hsign] at hsplit
  subst hsplit
  rcases hform with rfl | ⟨rfl, rfl⟩
  · obtain ⟨htake, hdrop⟩ := takeWhile_digits (r := fraction ++ e :: r) hwhole
      (d := '.') (by decide)
    obtain ⟨htake', hdrop'⟩ := takeWhile_digits (r := r) hfraction hdigit
    have hempty : (whole.isEmpty && fraction.isEmpty) = false := by
      rcases hne with h | h
      · simp [h]
      · simp [h]
    simp only [htake, hdrop, htake', hdrop', hempty, Bool.false_eq_true, if_false,
      Option.isSome_map]
    exact hsome
  · obtain ⟨htake, hdrop⟩ := takeWhile_digits (r := r) hwhole hdigit
    have hempty : whole.isEmpty = false := by
      simpa using hne
    simp only [htake, hdrop, hempty, Bool.false_and, Bool.false_eq_true, if_false,
      Option.isSome_map]
    split
    · next heq => exact absurd (List.cons.inj heq).1 hpoint
    · exact hsome

theorem scientific_head {v : List Char} (h : IsScientific v) :
    ∃ c r, v = c :: r ∧ (isDigit c = true ∨ c = '.') := by
  obtain ⟨whole, fraction, rest, hwhole, _, hne, _, rfl | ⟨rfl, rfl⟩⟩ := h
  · cases whole with
    | nil => exact ⟨'.', _, rfl, Or.inr rfl⟩
    | cons c r => exact ⟨c, _, rfl, Or.inl (hwhole c List.mem_cons_self)⟩
  · obtain ⟨c, r, rfl⟩ := List.exists_cons_of_ne_nil (hne.resolve_right fun h => h rfl)
    exact ⟨c, r ++ rest, rfl, Or.inl (hwhole c List.mem_cons_self)⟩

theorem toLower_digit {c : Char} (h : isDigit c = true) : c.toLower = c := by
  have hle : c.val ≤ '9'.val := of_decide_eq_true (Bool.and_eq_true_iff.mp h).2
  unfold Char.toLower
  split
  · next hletter =>
    have hlt : '9'.val < 'A'.val := by decide
    exact absurd (UInt32.le_trans hletter.1 hle) (UInt32.not_le.mpr hlt)
  · rfl

theorem lower_head {c : Char} (h : isDigit c = true ∨ c = '.') {r w : List Char} {d : Char}
    (hd : d = 'i' ∨ d = 'n') : lower (c :: r) ≠ d :: w := by
  intro heq
  have hhead : c.toLower = d := (List.cons.inj heq).1
  rcases h with h | rfl
  · rw [toLower_digit h] at hhead
    rw [hhead] at h
    rcases hd with rfl | rfl
    · exact absurd h (by decide)
    · exact absurd h (by decide)
  · rcases hd with rfl | rfl
    · exact absurd hhead (by decide)
    · exact absurd hhead (by decide)

theorem double?_number {sign v : List Char} (hs : sign ∈ signs) (hv : IsScientific v) :
    ∃ bits, double? (sign ++ v) = some bits ∧ isNaN bits = false := by
  obtain ⟨c, r, rfl, hc⟩ := scientific_head hv
  have hsign : c ≠ '-' ∧ c ≠ '+' := by
    rcases hc with hc | rfl
    · exact not_sign_of_digit hc
    · decide
  have hsplit := splitSign_signed hs (r := r) hsign
  obtain ⟨d, hd⟩ := Option.isSome_iff_exists.mp (decimal?_isSome hsplit hv)
  refine ⟨d.bits, ?_, d.isNaN_bits⟩
  rcases hpair : splitSign (sign ++ c :: r) with ⟨negative, word⟩
  rw [hpair] at hsplit
  subst hsplit
  have hinfinity : ¬ (lower (c :: r) = ['i', 'n', 'f'] ∨
      lower (c :: r) = ['i', 'n', 'f', 'i', 'n', 'i', 't', 'y']) :=
    not_or.mpr ⟨lower_head hc (Or.inl rfl), lower_head hc (Or.inl rfl)⟩
  have hnan : ¬ lower (c :: r) = ['n', 'a', 'n'] := lower_head hc (Or.inr rfl)
  simp only [double?, hpair, hinfinity, hnan, if_false, hd, Option.map_some]

end SparqlTokens.Number
