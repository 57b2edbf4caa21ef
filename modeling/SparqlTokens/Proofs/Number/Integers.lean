import Mathlib.Data.Nat.Digits.Defs
import SparqlTokens.Number.Integer
import SparqlTokens.Proofs.Number.Reading

/-! Integers of 64 bits. Digits are worth their sum by places, so zeros before them are worth
nothing. A counter of 64 bits that takes the digits one after another moves away from zero with each,
so it can hold all numbers on its way if and only if it can hold the last. -/
namespace SparqlTokens.Number

/-- What digits are worth by their places, the last one counting units. -/
def worth (digits : List Char) : ℕ := Nat.ofDigits 10 (digits.reverse.map digitValue)

def signed (negative : Bool) (n : ℕ) : ℤ := if negative then -n else n

/-- The numbers that 64 bits hold, one of them for the sign. -/
def Fits64 (n : ℤ) : Prop := -2 ^ 63 ≤ n ∧ n ≤ 2 ^ 63 - 1

instance (n : ℤ) : Decidable (Fits64 n) := inferInstanceAs (Decidable (_ ∧ _))

def held? (n : ℤ) : Option ℤ := if Fits64 n then some n else none

/-- One more digit for a counter of 64 bits, which counts down for a negative number. Neither the
product nor the sum may leave the range. -/
def takeDigit? (negative : Bool) (n : ℤ) (c : Char) : Option ℤ :=
  (held? (n * 10)).bind fun shifted =>
    held? (if negative then shifted - digitValue c else shifted + digitValue c)

/-- The counter behind all digits, if it has not been given up. -/
def countDigits? (negative : Bool) (digits : List Char) : Option ℤ :=
  digits.foldlM (takeDigit? negative) 0

theorem worth_concat (digits : List Char) (c : Char) :
    worth (digits ++ [c]) = 10 * worth digits + digitValue c := by
  rw [worth, List.reverse_append, List.reverse_singleton, List.singleton_append, List.map_cons,
    Nat.ofDigits_cons, Nat.add_comm]
  rfl

theorem natOfDigits_worth (digits : List Char) : natOfDigits digits = worth digits := by
  induction digits using List.reverseRecOn with
  | nil => rfl
  | append_singleton digits c ih =>
    rw [natOfDigits, List.foldl_append, worth_concat, ← ih]
    rfl

/-- Digits with zeros before them. -/
def padded (zeros : ℕ) (digits : List Char) : List Char := List.replicate zeros '0' ++ digits

theorem worth_padded (zeros : ℕ) (digits : List Char) : worth (padded zeros digits) = worth digits := by
  unfold padded
  induction digits using List.reverseRecOn with
  | nil =>
    induction zeros with
    | zero => rfl
    | succ zeros ih =>
      rw [List.append_nil] at ih ⊢
      rw [List.replicate_succ', worth_concat, ih]
      rfl
  | append_singleton digits c ih => rw [← List.append_assoc, worth_concat, worth_concat, ih]

theorem digits_padded {digits : List Char} (h : Digits digits) (zeros : ℕ) :
    Digits (padded zeros digits) := by
  intro c hc
  rcases List.mem_append.mp hc with hc | hc
  · rw [List.eq_of_mem_replicate hc]
    decide
  · exact h c hc

theorem signed_step (negative : Bool) (n d : ℕ) : signed negative (10 * n + d) =
    if negative then signed negative n * 10 - d else signed negative n * 10 + d := by
  cases negative with
  | false =>
    simp only [signed, Bool.false_eq_true, if_false]
    omega
  | true =>
    simp only [signed, if_true]
    omega

theorem fits_of_further {negative : Bool} {m n : ℕ} (hle : m ≤ n)
    (h : Fits64 (signed negative n)) : Fits64 (signed negative m) := by
  unfold Fits64 at *
  cases negative with
  | false =>
    simp only [signed, Bool.false_eq_true, if_false] at *
    omega
  | true =>
    simp only [signed, if_true] at *
    omega

/-- With one more digit the counter holds the number with that digit, if that fits. -/
theorem takeDigit?_held (negative : Bool) (n : ℕ) (c : Char) :
    (held? (signed negative n)).bind (takeDigit? negative · c) =
      held? (signed negative (10 * n + digitValue c)) := by
  by_cases hfits : Fits64 (signed negative (10 * n + digitValue c))
  · have hbefore : Fits64 (signed negative n) := fits_of_further (by omega) hfits
    have hshifted : Fits64 (signed negative n * 10) := by
      have hproduct : Fits64 (signed negative (10 * n + 0)) := fits_of_further (by omega) hfits
      rw [signed_step] at hproduct
      simpa using hproduct
    rw [held?, if_pos hbefore, Option.bind_some, takeDigit?, held?, if_pos hshifted,
      Option.bind_some, signed_step]
  · -- either the counter is given up before, or the product or the sum is refused now
    rw [held?, held?, if_neg hfits]
    by_cases hbefore : Fits64 (signed negative n)
    · rw [if_pos hbefore, Option.bind_some, takeDigit?, held?]
      by_cases hshifted : Fits64 (signed negative n * 10)
      · rw [if_pos hshifted, Option.bind_some, ← signed_step, held?, if_neg hfits]
      · rw [if_neg hshifted, Option.bind_none]
    · rw [if_neg hbefore, Option.bind_none]

/-- The counter is given up if and only if the whole number does not fit. -/
theorem countDigits?_held (negative : Bool) (digits : List Char) :
    countDigits? negative digits = held? (signed negative (worth digits)) := by
  induction digits using List.reverseRecOn with
  | nil =>
    cases negative with
    | false => rfl
    | true => rfl
  | append_singleton digits c ih =>
    rw [worth_concat, ← takeDigit?_held, ← ih, countDigits?, List.foldlM_append]
    simp only [List.foldlM_cons, List.foldlM_nil, bind_pure]
    rfl

theorem ofDigits?_signed {sign digits : List Char} (hs : sign ∈ signs) (hne : digits ≠ [])
    (hdigits : Digits digits) :
    ofDigits? (sign ++ digits) = some (signed (sign = ['-']) (worth digits)) := by
  obtain ⟨c, r, rfl⟩ := List.exists_cons_of_ne_nil hne
  have hc := not_sign_of_digit (hdigits c List.mem_cons_self)
  have hall : (c :: r).all isDigit = true := List.all_eq_true.mpr hdigits
  have hsplit : splitSign (sign ++ c :: r) = (decide (sign = ['-']), c :: r) := by
    simp only [signs, List.mem_cons, List.not_mem_nil, or_false] at hs
    rcases hs with rfl | rfl | rfl
    · exact splitSign_bare hc
    · rfl
    · rfl
  rw [ofDigits?, hsplit]
  simp only [List.isEmpty_cons, hall, Bool.not_true, Bool.or_false, Bool.false_eq_true, if_false,
    natOfDigits_worth, signed]

theorem int64?_signed {sign digits : List Char} (hs : sign ∈ signs) (hne : digits ≠ [])
    (hdigits : Digits digits) :
    int64? (sign ++ digits) = held? (signed (sign = ['-']) (worth digits)) := by
  have hbounds : ∀ n : ℤ, (Int64.minValue.toInt ≤ n && n ≤ Int64.maxValue.toInt) =
      decide (Fits64 n) := by
    intro n
    rw [← Bool.decide_and]
    rfl
  rw [int64?, ofDigits?_signed hs hne hdigits, Option.filter_some, hbounds, held?]
  simp only [decide_eq_true_eq]

end SparqlTokens.Number
