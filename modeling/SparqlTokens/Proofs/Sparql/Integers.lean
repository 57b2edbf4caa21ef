import SparqlTokens.Proofs.Number.Integers
import SparqlTokens.Proofs.Sparql.Values

/-! Integers of the grammar. Their values are the numbers that sign and digits denote as long as 64
bits hold these, down to the one negative number that has no positive counterpart; beyond that, the
text as it stands. -/
namespace SparqlTokens.Sparql

open Form Number Terminal Value

attribute [local irreducible] table Terminal.rule

/-- A rule for integers, with the kind of its tokens and the sign before their digits. -/
structure IntegerRule where
  name : String
  kind : Kind
  sign : List Char

def integerRules : List IntegerRule :=
  [⟨"INTEGER", .integer, []⟩, ⟨"INTEGER_POSITIVE", .integerPositive, ['+']⟩,
    ⟨"INTEGER_NEGATIVE", .integerNegative, ['-']⟩]

theorem integer_rule_cases {r : IntegerRule} (hr : r ∈ integerRules) :
    r = ⟨"INTEGER", .integer, []⟩ ∨ r = ⟨"INTEGER_POSITIVE", .integerPositive, ['+']⟩ ∨
      r = ⟨"INTEGER_NEGATIVE", .integerNegative, ['-']⟩ := by
  simpa only [integerRules, List.mem_cons, List.not_mem_nil, or_false] using hr

/-- The number that a sign and digits denote. -/
def denoted (sign digits : List Char) : ℤ := if sign = ['-'] then -worth digits else worth digits

theorem denoted_signed (sign digits : List Char) :
    denoted sign digits = signed (sign = ['-']) (worth digits) := by
  simp only [denoted, signed, decide_eq_true_eq]

theorem digits_iff {w : List Char} : (∀ c ∈ w, c ∈ digits) ↔ Digits w := by
  constructor
  · exact digits_isDigit
  · intro h c hc
    obtain ⟨hl, hu⟩ := Bool.and_eq_true_iff.mp (h c hc)
    exact CharSet.mem_range.mpr ⟨of_decide_eq_true hl, of_decide_eq_true hu⟩

theorem mem_unsigned {w : List Char} : w ∈ Form.integer.language ↔ w ≠ [] ∧ Digits w :=
  Expression.mem_many1_set.trans (and_congr_right fun _ => digits_iff)

theorem mem_led_digits {c : Char} {w : List Char} :
    w ∈ (Expression.cat (char c) Form.integer).language ↔
      ∃ ds, ds ≠ [] ∧ Digits ds ∧ w = c :: ds := by
  constructor
  · intro h
    obtain ⟨ds, hds, rfl⟩ := mem_led h
    obtain ⟨hne, hdigits⟩ := mem_unsigned.mp hds
    exact ⟨ds, hne, hdigits, rfl⟩
  · intro hparts
    obtain ⟨ds, hne, hdigits, rfl⟩ := hparts
    exact Language.append_mem_mul (a := [c]) rfl (mem_unsigned.mpr ⟨hne, hdigits⟩)

theorem integer_rule_iff {r : IntegerRule} (hr : r ∈ integerRules) {lexeme : List Char} :
    table.check? lexeme r.name = some true ↔
      ∃ ds, ds ≠ [] ∧ Digits ds ∧ lexeme = r.sign ++ ds := by
  rcases integer_rule_cases hr with rfl | rfl | rfl
  · apply (check?_iff Terminal.integer lexeme).trans
    apply mem_unsigned.trans
    constructor
    · intro h
      exact ⟨lexeme, h.1, h.2, rfl⟩
    · intro hparts
      obtain ⟨ds, hne, hdigits, rfl⟩ := hparts
      exact ⟨hne, hdigits⟩
  · exact (check?_iff integerPositive lexeme).trans mem_led_digits
  · exact (check?_iff integerNegative lexeme).trans mem_led_digits

theorem sign_mem {r : IntegerRule} (hr : r ∈ integerRules) : r.sign ∈ Number.signs := by
  rcases integer_rule_cases hr with rfl | rfl | rfl
  · decide
  · decide
  · decide

theorem integer_kind {r : IntegerRule} (hr : r ∈ integerRules) (lexeme : String) :
    Kind.ofRule? r.name lexeme = some r.kind := by
  rcases integer_rule_cases hr with rfl | rfl | rfl
  · rfl
  · rfl
  · rfl

theorem decode_integer {r : IntegerRule} (hr : r ∈ integerRules) (lexeme : String) :
    decode? r.kind lexeme = some (match int64? lexeme.toList with
      | some n => .integer n
      | none => .bigInteger lexeme) := by
  have hkinds : decode? r.kind lexeme = match int64? lexeme.toList with
      | some n => some (.integer n)
      | none => some (.bigInteger lexeme) := by
    rcases integer_rule_cases hr with rfl | rfl | rfl
    · rfl
    · rfl
    · rfl
  rw [hkinds]
  split
  · rfl
  · rfl

theorem decode_signed {r : IntegerRule} (hr : r ∈ integerRules) {ds : List Char} (hne : ds ≠ [])
    (hdigits : Digits ds) : decode? r.kind (String.ofList (r.sign ++ ds)) =
      some (if Fits64 (denoted r.sign ds) then .integer (denoted r.sign ds)
        else .bigInteger (String.ofList (r.sign ++ ds))) := by
  rw [decode_integer hr, String.toList_ofList, int64?_signed (sign_mem hr) hne hdigits,
    ← denoted_signed, held?]
  by_cases hfits : Fits64 (denoted r.sign ds)
  · rw [if_pos hfits, if_pos hfits]
  · rw [if_neg hfits, if_neg hfits]

/-- A text that a rule for integers accepts is its sign before digits. Its value is the number they
denote, if that is within 64 bits, and the text as it stands otherwise; a counter of 64 bits that is
given up where it would overflow finds just the same. The rule accepts any number of zeros before
the digits too, and they change neither the number nor whether it fits. -/
theorem integer_values_exact {r : IntegerRule} (hr : r ∈ integerRules) {lexeme : List Char}
    (h : table.check? lexeme r.name = some true) :
    Kind.ofRule? r.name (String.ofList lexeme) = some r.kind ∧
    ∃ ds, ds ≠ [] ∧ Digits ds ∧ lexeme = r.sign ++ ds ∧
      decode? r.kind (String.ofList lexeme) = some (if Fits64 (denoted r.sign ds)
        then .integer (denoted r.sign ds) else .bigInteger (String.ofList lexeme)) ∧
      countDigits? (r.sign = ['-']) ds =
        (if Fits64 (denoted r.sign ds) then some (denoted r.sign ds) else none) ∧
      ∀ zeros : ℕ, table.check? (r.sign ++ padded zeros ds) r.name = some true ∧
        decode? r.kind (String.ofList (r.sign ++ padded zeros ds)) =
          some (if Fits64 (denoted r.sign ds) then .integer (denoted r.sign ds)
            else .bigInteger (String.ofList (r.sign ++ padded zeros ds))) := by
  obtain ⟨ds, hne, hdigits, rfl⟩ := (integer_rule_iff hr).mp h
  refine ⟨integer_kind hr _, ds, hne, hdigits, rfl, decode_signed hr hne hdigits, ?_, ?_⟩
  · rw [countDigits?_held, ← denoted_signed, held?]
  · intro zeros
    have hlonger : padded zeros ds ≠ [] := by
      intro hnil
      exact hne (List.append_eq_nil_iff.mp hnil).2
    have hpadded := digits_padded hdigits zeros
    have hsame : denoted r.sign (padded zeros ds) = denoted r.sign ds := by
      rw [denoted, denoted, worth_padded]
    refine ⟨(integer_rule_iff hr).mpr ⟨_, hlonger, hpadded, rfl⟩, ?_⟩
    rw [decode_signed hr hlonger hpadded, hsame]

/-- The digits of the least number of 64 bits, which has no positive counterpart. -/
def leastDigits : List Char :=
  ['9', '2', '2', '3', '3', '7', '2', '0', '3', '6', '8', '5', '4', '7', '7', '5', '8', '0', '8']

/-- With a minus sign they are a number, also behind zeros; with a plus sign they stay a text. -/
theorem least_integer_has_no_counterpart :
    ∃ negative ∈ integerRules, ∃ positive ∈ integerRules,
      table.check? ('-' :: leastDigits) negative.name = some true ∧
      table.check? ('+' :: leastDigits) positive.name = some true ∧
      decode? negative.kind (String.ofList ('-' :: padded 20 leastDigits)) =
        some (.integer (-2 ^ 63)) ∧
      decode? positive.kind (String.ofList ('+' :: leastDigits)) =
        some (.bigInteger (String.ofList ('+' :: leastDigits))) := by
  have hnegative : (⟨"INTEGER_NEGATIVE", .integerNegative, ['-']⟩ : IntegerRule) ∈ integerRules :=
    List.mem_cons_of_mem _ (List.mem_cons_of_mem _ List.mem_cons_self)
  have hpositive : (⟨"INTEGER_POSITIVE", .integerPositive, ['+']⟩ : IntegerRule) ∈ integerRules :=
    List.mem_cons_of_mem _ List.mem_cons_self
  have hdigits : Digits leastDigits := List.all_eq_true.mp (by decide)
  have hne : leastDigits ≠ [] := List.cons_ne_nil _ _
  have hminus := (integer_rule_iff hnegative).mpr ⟨_, hne, hdigits, rfl⟩
  have hplus := (integer_rule_iff hpositive).mpr ⟨_, hne, hdigits, rfl⟩
  have hfits : Fits64 (denoted ['-'] leastDigits) := by decide
  have hover : ¬ Fits64 (denoted ['+'] leastDigits) := by decide
  obtain ⟨_, ds, _, _, hds, _, _, hzeros⟩ := integer_values_exact hnegative hminus
  obtain ⟨_, es, _, _, hes, hvalue, _⟩ := integer_values_exact hpositive hplus
  cases List.append_cancel_left hds
  cases List.append_cancel_left hes
  refine ⟨_, hnegative, _, hpositive, hminus, hplus, ?_, ?_⟩
  · have hdecoded := (hzeros 20).2
    rw [if_pos hfits] at hdecoded
    exact hdecoded
  · rw [if_neg hover] at hvalue
    exact hvalue

end SparqlTokens.Sparql
