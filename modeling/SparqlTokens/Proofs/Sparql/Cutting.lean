import SparqlTokens.Proofs.Lexing.Positions
import SparqlTokens.Proofs.Sparql.Tokens

/-! What is cut from a text by the token rules of the grammar. No word of a rule that takes part is
longer than the lexeme chosen, every lexeme has a kind, and so a cut fails only where nothing is
chosen or the opening of an unfinished literal is. -/
namespace SparqlTokens.Sparql

attribute [local irreducible] table Terminal.rule

/-- The spelling of punctuation, written out. -/
def spellings : List (List Char) :=
  [['\x7b'], ['\x7d'], ['('], [')'], ['['], [']'], ['.'], [','], [';'], ['^', '^'], ['|', '|'],
    ['&', '&'], ['='], ['!', '='], ['<'], ['>'], ['<', '='], ['>', '='], ['+'], ['-'], ['*'], ['/'],
    ['!'], ['?'], ['|'], ['^']]

theorem punct_texts : Punct.all.map Punct.text = spellings.map String.ofList := rfl

theorem ofText?_isSome {w : List Char} (h : w ∈ spellings) :
    (Punct.ofText? (String.ofList w)).isSome = true := by
  have hmem : String.ofList w ∈ Punct.all.map Punct.text := by
    rw [punct_texts]
    exact List.mem_map_of_mem h
  obtain ⟨p, hp, htext⟩ := List.mem_map.mp hmem
  exact List.find?_isSome.mpr ⟨p, hp, decide_eq_true htext⟩

namespace Terminal

variable {settings : Settings} {rest : List Char} {c : Candidate} {S T : Terminal}

/-- Whether a terminal takes part in a run. -/
def Admitted (settings : Settings) (T : Terminal) : Prop :=
  settings.comments = true ∨ T ≠ comment

theorem admits_iff : settings.admits T.rule = true ↔ T.Admitted settings := by
  rw [Settings.admits, Bool.or_eq_true, decide_eq_true_iff, Ne, name_comment]
  rfl

theorem rule_mem (hT : T ∈ tokens) : T.rule ∈ table.tokenRules := by
  rw [tokenRules_eq]
  exact List.mem_map_of_mem hT

theorem mem_tokenRules {r : Rule} (h : r ∈ table.tokenRules) : ∃ T ∈ tokens, T.rule = r := by
  rw [tokenRules_eq] at h
  exact List.mem_map.mp h

theorem select?_word (h : table.select? settings.admits rest = some c) :
    ∃ T ∈ tokens, T.Admitted settings ∧ c.rule = T.rule ∧ c.lexeme ∈ T.words := by
  obtain ⟨r, hr, hk, hc⟩ := Table.select?_candidate h
  obtain ⟨T, hT, rfl⟩ := mem_tokenRules hr
  obtain ⟨hrule, hwords, _⟩ := candidate?_spec hc
  exact ⟨T, hT, admits_iff.mp hk, hrule, hwords⟩

theorem ident_admitted : ident.Admitted settings := Or.inr (by decide)

/-- A word of a terminal that takes part is no longer than some candidate that is not left out. A
truth value that is no candidate stands before the rest of a name, which is longer. -/
theorem candidate_beyond (hS : S ∈ tokens) (ha : S.Admitted settings) {u : List Char}
    (hu : u <+: rest) (hw : u ∈ S.words) (hne : u ≠ []) : ∃ T ∈ tokens, T.Admitted settings ∧
      ∃ d, table.candidate? rest T.rule = some d ∧ u.length ≤ d.lexeme.length := by
  rcases candidate?_word hu hw hne with ⟨d, hd⟩ | ⟨_, w, hlt, hwrest, hwords⟩
  · exact ⟨S, hS, ha, d, hd, (candidate?_spec hd).2.2 u hu hw⟩
  · have hident : ident ∈ tokens := by decide
    have hnil : w ≠ [] := List.ne_nil_of_length_pos (Nat.zero_lt_of_lt hlt)
    rcases candidate?_word (T := ident) hwrest hwords hnil with ⟨d, hd⟩ | ⟨he, _⟩
    · have hle : w.length ≤ d.lexeme.length := (candidate?_spec hd).2.2 w hwrest hwords
      exact ⟨ident, hident, ident_admitted, d, hd, hlt.le.trans hle⟩
    · cases he

theorem select?_longest (h : table.select? settings.admits rest = some c) (hS : S ∈ tokens)
    (ha : S.Admitted settings) {u : List Char} (hu : u <+: rest) (hw : u ∈ S.words) :
    u.length ≤ c.lexeme.length := by
  by_cases hne : u = []
  · rw [hne]
    exact Nat.zero_le _
  · obtain ⟨T, hT, haT, d, hd, hle⟩ := candidate_beyond hS ha hu hw hne
    exact hle.trans (Table.select?_max h (rule_mem hT) (admits_iff.mpr haT) hd)

theorem select?_nothing (h : table.select? settings.admits rest = none) (hS : S ∈ tokens)
    (ha : S.Admitted settings) {u : List Char} (hu : u <+: rest) (hw : u ∈ S.words) : u = [] := by
  by_contra hne
  obtain ⟨T, hT, haT, d, hd, _⟩ := candidate_beyond hS ha hu hw hne
  rw [Table.select?_none h (rule_mem hT) (admits_iff.mpr haT)] at hd
  cases hd

theorem comment_head {w : List Char} (h : w ∈ comment.words) : ∃ v, w = '#' :: v := by
  obtain ⟨u, hu, v, _, rfl⟩ := Language.mem_mul.mp h
  exact ⟨v, by rw [show u = ['#'] from hu]; rfl⟩

theorem comment_disjoint (hT : T ∈ tokens) {w : List Char} (h : w ∈ comment.words)
    (hw : w ∈ T.words) : T = comment := by
  obtain ⟨v, rfl⟩ := comment_head h
  have honly : T ∈ [comment] := begins_only (by decide) hT hw
  exact List.mem_singleton.mp honly

/-! Kinds -/

theorem mem_punct {w : List Char} : w ∈ punct.words ↔
    w ∈ [['^', '^'], ['|', '|'], ['&', '&'], ['!', '='], ['<', '='], ['>', '=']] ∨
      ∃ c ∈ Form.signs, w = [c] := by
  have hform : w ∈ punct.words ↔
      ∃ e ∈ Form.pairSigns ++ [Expression.set Form.signs], w ∈ e.language :=
    Expression.mem_ofBranches
  rw [hform]
  simp only [List.mem_append, List.mem_singleton, or_and_right, exists_or, exists_eq_left]
  apply or_congr
  · simp only [Form.pairSigns, List.mem_cons, List.not_mem_nil, or_false, exists_eq_or_imp,
      exists_eq_left]
    exact Iff.rfl
  · exact Iff.rfl

theorem punct_spelling {w : List Char} (h : w ∈ punct.words) : w ∈ spellings := by
  rcases mem_punct.mp h with hpair | ⟨c, hc, rfl⟩
  · have hsub : ∀ u ∈ [['^', '^'], ['|', '|'], ['&', '&'], ['!', '='], ['<', '='], ['>', '=']],
        u ∈ spellings := by decide
    exact hsub w hpair
  · have hsub : ∀ u ∈ ['\x7b', '\x7d', '(', ')', '[', ']', '.', ',', ';', '=', '<', '>', '+', '-',
        '*', '/', '!', '?', '|', '^'].map fun d => [d], u ∈ spellings := by decide
    exact hsub [c] (List.mem_map_of_mem (Form.mem_among.mp hc))

theorem kind_isSome {T : Terminal} (hT : T ∈ tokens) {w : List Char} (hw : w ∈ T.words) :
    (Kind.ofRule? T.name (String.ofList w)).isSome = true := by
  by_cases hp : T = punct
  · subst hp
    have htext := ofText?_isSome (punct_spelling hw)
    have hkind : Kind.ofRule? (name punct) (String.ofList w) =
        (Punct.ofText? (String.ofList w)).map .punctuation := rfl
    rw [hkind, Option.isSome_map]
    exact htext
  · cases T
    all_goals first
      | rfl
      | exact absurd rfl hp
      | exact absurd hT (by decide)

end Terminal

/-- Nothing is chosen, or the failure is seen behind what is chosen, or there is a token. -/
theorem cut_cases (settings : Settings) (rest : List Char) :
    (table.select? settings.admits rest = none ∧
      table.cut settings rest = .error (Failure.unmatched rest)) ∨
    ∃ d, table.select? settings.admits rest = some d ∧
      ((∃ f, Failure.ofOpening? d.rule.name rest = some f ∧ table.cut settings rest = .error f) ∨
        (Failure.ofOpening? d.rule.name rest = none ∧ ∃ k, table.cut settings rest = .ok k)) := by
  unfold Table.cut
  cases hs : table.select? settings.admits rest with
  | none => exact Or.inl ⟨rfl, rfl⟩
  | some d =>
    refine Or.inr ⟨d, rfl, ?_⟩
    cases ho : Failure.ofOpening? d.rule.name rest with
    | some f => exact Or.inl ⟨f, rfl, by simp only [ho]⟩
    | none =>
      obtain ⟨T, hT, _, hrule, hw⟩ := Terminal.select?_word hs
      have hkind := Terminal.kind_isSome hT hw
      rw [← Terminal.rule_name, ← hrule] at hkind
      obtain ⟨k, hk⟩ := Option.isSome_iff_exists.mp hkind
      refine Or.inr ⟨rfl, { kind := k, rule := d.rule.name, lexeme := d.lexeme }, ?_⟩
      simp only [ho, hk]

end SparqlTokens.Sparql
