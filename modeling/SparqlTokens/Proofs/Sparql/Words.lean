import SparqlTokens.Proofs.Pattern.Together
import SparqlTokens.Proofs.Sparql.Tokens

/-! What words the terminals share. No text is a word of two token rules, but for the truth values,
which are names too; and several rules that make no tokens describe exactly the words of some that
do. Both are found for all texts at once. -/
namespace SparqlTokens.Sparql.Terminal

open Form

attribute [local irreducible] table rule

def unsignedNumbers : List Terminal := [double, decimal, integer]

def positiveNumbers : List Terminal := [doublePositive, decimalPositive, integerPositive]

def negativeNumbers : List Terminal := [doubleNegative, decimalNegative, integerNegative]

def numbers : List Terminal := unsignedNumbers ++ positiveNumbers ++ negativeNumbers

def quoted : List Terminal := [stringLong1, stringLong2, string1, string2]

def prefixedNames : List Terminal := [pnameLn, pnameNs]

def iris : List Terminal := iriref :: prefixedNames

def blankNodes : List Terminal := [blankNodeLabel, anon]

/-- Terminals that describe the words of some token rules, each with these. -/
def unions : List (Terminal × List Terminal) := [
  (numericUnsigned, unsignedNumbers), (numericPositive, positiveNumbers),
  (numericNegative, negativeNumbers), (numeric, numbers), (string, quoted),
  (prefixedName, prefixedNames), (iri, iris), (blankNode, blankNodes)]

/-- The terminals that are compared. -/
def compared : List Terminal := tokens ++ unions.map Prod.fst

/-- What is said of the terminals among `compared` that describe a text. -/
def isConsistent (describing : List Terminal) : Bool :=
  let found := describing.filter tokens.contains
  (found.length ≤ 1 || found == [boolean, ident]) &&
    unions.all fun p => describing.contains p.1 == p.2.any describing.contains

theorem always_consistent :
    Expression.holdsWith 10000 isConsistent form compared = true := by
  decide +kernel

open Classical in
theorem describing_consistent (w : List Char) :
    isConsistent (compared.filter fun T => w ∈ T.words) = true :=
  Expression.holds_of_holdsWith (fun T _ => form_regular T) always_consistent w

/-- A word belongs to one token rule, unless it is a truth value. -/
theorem tokens_apart {S T : Terminal} (hS : S ∈ tokens) (hT : T ∈ tokens) {w : List Char}
    (hwS : w ∈ S.words) (hwT : w ∈ T.words) :
    S = T ∨ S ∈ [boolean, ident] ∧ T ∈ [boolean, ident] := by
  classical
  have hfound : ∀ R ∈ tokens, w ∈ R.words →
      R ∈ (compared.filter fun T => w ∈ T.words).filter tokens.contains := by
    intro R hR hw
    simp only [List.mem_filter, List.contains_iff_mem, compared, List.mem_append, hR, hw,
      true_or, decide_true, and_self]
  have hS' := hfound S hS hwS
  have hT' := hfound T hT hwT
  have hconsistent := (Bool.and_eq_true_iff.mp (describing_consistent w)).1
  rcases Bool.or_eq_true_iff.mp hconsistent with hone | htwo
  · exact Or.inl (Expression.eq_of_length_le_one (of_decide_eq_true hone) hS' hT')
  · rw [eq_of_beq htwo] at hS' hT'
    exact Or.inr ⟨hS', hT'⟩

theorem mem_union {T : Terminal} {parts : List Terminal} (h : (T, parts) ∈ unions)
    {w : List Char} : w ∈ T.words ↔ ∃ S ∈ parts, w ∈ S.words := by
  classical
  have hcompared : ∀ S ∈ T :: parts, S ∈ compared := by
    have hall : ∀ p ∈ unions, ∀ S ∈ p.1 :: p.2, S ∈ compared := by decide
    exact hall _ h
  have hdescribing : ∀ S ∈ T :: parts,
      ((compared.filter fun T => w ∈ T.words).contains S = true ↔ w ∈ S.words) := by
    intro S hS
    simp only [List.contains_iff_mem, List.mem_filter, hcompared S hS, decide_eq_true_iff,
      true_and]
  have hconsistent := (Bool.and_eq_true_iff.mp (describing_consistent w)).2
  have hsame := eq_of_beq (List.all_eq_true.mp hconsistent _ h)
  rw [← hdescribing T List.mem_cons_self, hsame, List.any_eq_true]
  exact exists_congr fun S =>
    and_congr_right fun hS => hdescribing S (List.mem_cons_of_mem _ hS)

theorem token_nonempty {T : Terminal} (hT : T ∈ tokens) {w : List Char} (hw : w ∈ T.words) :
    w ≠ [] := by
  rintro rfl
  have hnone : (tokens.all fun T => !T.form.mayBeEmpty) = true := by decide
  have hcheck := List.all_eq_true.mp hnone T hT
  rw [Expression.mayBeEmpty_of_nil_mem hw] at hcheck
  cases hcheck

theorem quoted_of_head {T : Terminal} (hT : T ∈ tokens) {c : Char} (hc : c = '"' ∨ c = '\'')
    {w : List Char} (hw : c :: w ∈ T.words) : T ∈ quoted := by
  rcases hc with rfl | rfl
  · have honly : T ∈ [string2, stringLong2] := begins_only (by decide) hT hw
    exact (by decide : ∀ S ∈ [string2, stringLong2], S ∈ quoted) T honly
  · have honly : T ∈ [string1, stringLong1] := begins_only (by decide) hT hw
    exact (by decide : ∀ S ∈ [string1, stringLong1], S ∈ quoted) T honly

/-- No token rule describes what an expression does, if none of those does whose words begin like the
texts of the expression. -/
theorem never_token {F : Option Terminal → Expression} {only : List Terminal}
    (hapart : Expression.isApartWith 10000 none F (none :: only.map some) = true)
    (hform : ∀ T, F (some T) = T.form) (he : (F none).isRegular = true)
    (hne : (F none).mayBeEmpty = false)
    (honly : (tokens.all fun S => decide (S ∈ only) ||
      S.form.heads.inter (F none).heads == .none) = true)
    {S : Terminal} (hS : S ∈ tokens) {w : List Char} (hw : w ∈ (F none).language) :
    w ∉ S.words := by
  intro hwS
  have hregular := Expression.regular_of_isRegular he
  cases w with
  | nil =>
    rw [Expression.mayBeEmpty_of_nil_mem hw] at hne
    cases hne
  | cons c v =>
    rcases Bool.or_eq_true_iff.mp (List.all_eq_true.mp honly S hS) with hmem | hother
    · have hlabel : some S ∈ none :: only.map some :=
        List.mem_cons_of_mem _ (List.mem_map_of_mem (of_decide_eq_true hmem))
      have hregulars : ∀ a ∈ none :: only.map some, (F a).Regular := by
        intro a _
        cases a with
        | none => exact hregular
        | some T =>
          rw [hform]
          exact form_regular T
      have hwF : c :: v ∈ (F (some S)).language := by
        rw [hform]
        exact hwS
      cases Expression.eq_of_isApartWith hregulars hapart List.mem_cons_self hlabel hw hwF
    · have hboth : c ∈ S.form.heads.inter (F none).heads :=
        (CharSet.mem_inter (Expression.heads_ascending (form_regular S).wellFormed)
          (Expression.heads_ascending hregular.wellFormed)).mpr
          ⟨Expression.head_mem (form_regular S).wellFormed hwS,
            Expression.head_mem hregular.wellFormed hw⟩
      rw [eq_of_beq hother] at hboth
      cases hboth

end SparqlTokens.Sparql.Terminal
