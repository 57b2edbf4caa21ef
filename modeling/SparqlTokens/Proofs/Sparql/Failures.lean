import SparqlTokens.Proofs.Sparql.Openings

/-! When no token is cut from a text, by its first character: in quotes and at an angle bracket if the
literal is not finished, elsewhere if no token begins there. -/
namespace SparqlTokens.Sparql

attribute [local irreducible] table Terminal.rule

variable {settings : Settings} {rest r : List Char} {c : Char} {f : Failure}

/-- A rule that has no match at the start of a text. -/
def NoMatch (rule : String) (rest : List Char) : Prop := table.matchAt? rule rest 0 = some none

theorem noMatch_iff (T : Terminal) : NoMatch T.name rest ↔ ¬ ∃ u, u <+: rest ∧ u ∈ T.words := by
  have hdrop : Text.dropBytes? 0 rest = some rest := by cases rest <;> rfl
  rw [NoMatch, Table.matchAt?, Terminal.rule?_name, ← Terminal.leadingLength?_isSome_iff]
  simp only [Option.map_some, hdrop, Option.bind_some, Option.some.injEq, Rule.leadingBytes?,
    Option.map_eq_none_iff, Bool.not_eq_true, Option.isSome_eq_false_iff, Option.isNone_iff_eq_none]

theorem failure?_of_open {e : Ending} (h : ¬ ∃ k, e = .closed k) : ∃ f, e.failure? = some f := by
  cases e with
  | closed k => exact absurd ⟨k, rfl⟩ h
  | unterminated => exact ⟨_, rfl⟩
  | badEscape k => exact ⟨_, rfl⟩

theorem cut_word {T : Terminal} (hT : T ∈ Terminal.tokens) (hne : T ≠ .comment) {u : List Char}
    (hu : u <+: rest) (hw : u ∈ T.words) (hnil : u ≠ [])
    (hopening : ∀ rule, Failure.ofOpening? rule rest = none) :
    ¬ table.cut settings rest = .error f := by
  obtain ⟨d, hd⟩ := Terminal.select?_of_word settings hT hne hu hw hnil
  rcases cut_cases settings rest with ⟨hs, _⟩ | ⟨d, _, ⟨g, ho, _⟩ | ⟨_, k, hcut⟩⟩
  · rw [hd] at hs; cases hs
  · rw [hopening] at ho; cases ho
  · rw [hcut]; exact fun h => by cases h

def shortRule (quote : Char) : String :=
  if quote = '"' then "STRING_LITERAL2" else "STRING_LITERAL1"

def longRule (quote : Char) : String :=
  if quote = '"' then "STRING_LITERAL_LONG2" else "STRING_LITERAL_LONG1"

theorem take_two {quote : Char} (h : r.take 2 = [quote, quote]) :
    ∃ body, r = quote :: quote :: body := by
  refine ⟨r.drop 2, ?_⟩
  have hsplit := List.take_append_drop 2 r
  rw [h] at hsplit
  exact hsplit.symm

theorem misses_iff {rule : String} : Failure.missesTripleQuote rule (c :: r) = true ↔
    (c = '"' ∨ c = '\'') ∧ r.take 2 = [c, c] ∧ rule ≠ longRule c := by
  constructor
  · unfold Failure.missesTripleQuote
    split
    · next heq =>
      cases heq
      intro h
      exact ⟨Or.inl rfl, rfl, of_decide_eq_true h⟩
    · next heq =>
      cases heq
      intro h
      exact ⟨Or.inr rfl, rfl, of_decide_eq_true h⟩
    · intro h
      cases h
  · rintro ⟨rfl | rfl, htake, hrule⟩
    · obtain ⟨body, rfl⟩ := take_two htake
      exact decide_eq_true hrule
    · obtain ⟨body, rfl⟩ := take_two htake
      exact decide_eq_true hrule

theorem opening_cons {rule : String} (hb : c ≠ '<') : Failure.ofOpening? rule (c :: r) =
    if (c = '"' ∨ c = '\'') ∧ r.take 2 = [c, c] ∧ rule ≠ longRule c then
      (Failure.quoted? (c :: r)).bind Ending.failure?
    else none := by
  have hbracket : ∀ s, c :: r ≠ '<' :: s := by
    intro s h
    exact hb (List.cons.inj h).1
  rw [Failure.ofOpening?]
  · by_cases hmiss : Failure.missesTripleQuote rule (c :: r) = true
    · rw [if_pos hmiss, if_pos (misses_iff.mp hmiss)]
    · rw [if_neg hmiss, if_neg fun h => hmiss (misses_iff.mpr h)]
  · exact hbracket

theorem quoted_cons (hc : c = '"' ∨ c = '\'') : Failure.quoted? (c :: r) =
    some (if r.take 2 = [c, c] then .long c 3 (r.drop 2) else .short c 1 r) := by
  rw [Failure.quoted?, if_pos hc]
  split <;> rfl

/-- The two rules for the texts that a quote opens. -/
structure Quotes (quote : Char) (short long : Terminal) : Prop where
  kind : quote = '"' ∨ quote = '\''
  short_name : short.name = shortRule quote
  long_name : long.name = longRule quote
  short_mem : short ∈ Terminal.tokens
  long_mem : long ∈ Terminal.tokens
  short_not_comment : short ≠ .comment
  long_not_comment : long ≠ .comment
  short_words : short.words = (Form.short quote).language
  long_words : long.words = (Form.long quote).language
  only : ∀ T ∈ Terminal.tokens, ∀ w, quote :: w ∈ T.words → T ∈ [short, long]

theorem double_quotes : Quotes '"' .string2 .stringLong2 where
  kind := Or.inl rfl
  short_name := rfl
  long_name := rfl
  short_mem := by decide
  long_mem := by decide
  short_not_comment := by decide
  long_not_comment := by decide
  short_words := rfl
  long_words := rfl
  only _ hT _ hw := Terminal.begins_only (by decide) hT hw

theorem apostrophes : Quotes '\'' .string1 .stringLong1 where
  kind := Or.inr rfl
  short_name := rfl
  long_name := rfl
  short_mem := by decide
  long_mem := by decide
  short_not_comment := by decide
  long_not_comment := by decide
  short_words := rfl
  long_words := rfl
  only _ hT _ hw := Terminal.begins_only (by decide) hT hw

theorem quotes_of {quote : Char} (h : quote = '"' ∨ quote = '\'') :
    ∃ S L, Quotes quote S L := by
  rcases h with rfl | rfl
  · exact ⟨_, _, double_quotes⟩
  · exact ⟨_, _, apostrophes⟩

section Quotes

variable {quote : Char} {S L T : Terminal} {body : List Char}

/-- Where the scanner for the text of a rule closes if and only if that rule has a match, there is a
failure if and only if it has none. -/
theorem cut_quoted {e : Ending} {defect : Failure} (hT : T ∈ Terminal.tokens) (hne : T ≠ .comment)
    (hnil : [] ∉ T.words) (hquoted : Failure.quoted? rest = some e)
    (hmatch : (∃ k, e = .closed k) ↔ ∃ u, u <+: rest ∧ u ∈ T.words)
    (hopening : ∀ rule, Failure.ofOpening? rule rest = none ∨
      Failure.ofOpening? rule rest = e.failure?)
    (hseen : ∀ d, table.select? settings.admits rest = some d → (¬ ∃ k, e = .closed k) →
      Failure.ofOpening? d.rule.name rest = e.failure?)
    (hdefect : ∀ g, e.failure? = some g → g = defect) :
    table.cut settings rest = .error f ↔ NoMatch T.name rest ∧ f = defect := by
  rw [noMatch_iff, ← hmatch]
  by_cases hclosed : ∃ k, e = .closed k
  · obtain ⟨u, hu, hw⟩ := hmatch.mp hclosed
    have hne' : u ≠ [] := by
      rintro rfl
      exact hnil hw
    have hnone : ∀ rule, Failure.ofOpening? rule rest = none := by
      intro rule
      obtain ⟨k, rfl⟩ := hclosed
      rcases hopening rule with h | h
      · exact h
      · exact h
    exact iff_of_false (cut_word hT hne hu hw hne' hnone) fun h => h.1 hclosed
  · obtain ⟨g, hg⟩ := failure?_of_open hclosed
    have hcut : table.cut settings rest = .error g := by
      rcases cut_cases settings rest with ⟨_, hcut⟩ | ⟨d, hs, ⟨g', hg', hcut⟩ | ⟨hnone, _⟩⟩
      · rw [hcut, Failure.unmatched, hquoted, Option.bind_some, hg]
      · rw [hseen d hs hclosed, hg] at hg'
        rw [hcut, Option.some.inj hg']
      · rw [hseen d hs hclosed, hg] at hnone
        cases hnone
    rw [hcut, hdefect g hg]
    constructor
    · intro h
      cases h
      exact ⟨hclosed, rfl⟩
    · rintro ⟨_, rfl⟩
      rfl

theorem no_escape (h : quote = '"' ∨ quote = '\'') : quote ≠ '\\' := by
  rcases h with rfl | rfl <;> decide

theorem no_bracket (h : quote = '"' ∨ quote = '\'') : quote ≠ '<' := by
  rcases h with rfl | rfl <;> decide

/-- At three quotes there is a failure if and only if their rule has no match. -/
theorem cut_long (hQ : Quotes quote S L) (hrest : rest = quote :: quote :: quote :: body) :
    table.cut settings rest = .error f ↔
      NoMatch (longRule quote) rest ∧ f = defectFailure 3 (firstDefect false body) := by
  have hmatch : (∃ k, Ending.long quote 3 body = .closed k) ↔ _ :=
    long_closed_iff (no_escape hQ.kind)
  rw [← hrest, ← hQ.long_words] at hmatch
  have hquoted : Failure.quoted? rest = some (.long quote 3 body) := by
    rw [hrest, quoted_cons hQ.kind]
    exact congrArg some (if_pos rfl)
  have hopening : ∀ rule, Failure.ofOpening? rule rest =
      if rule ≠ longRule quote then (Ending.long quote 3 body).failure? else none := by
    intro rule
    rw [hrest, opening_cons (no_bracket hQ.kind), ← hrest, hquoted, Option.bind_some]
    exact if_congr ⟨fun h => h.2.2, fun h => ⟨hQ.kind, rfl, h⟩⟩ rfl rfl
  have hnil : [] ∉ L.words := by
    rw [hQ.long_words, mem_long]
    rintro ⟨_, _, heq⟩
    cases heq
  rw [← hQ.long_name] at hopening ⊢
  apply cut_quoted hQ.long_mem hQ.long_not_comment hnil hquoted hmatch
  · intro rule
    rw [hopening]
    by_cases h : rule ≠ L.name
    · exact Or.inr (if_pos h)
    · exact Or.inl (if_neg h)
  · intro d hs hopen
    have hrule : d.rule.name ≠ L.name := by
      intro he
      obtain ⟨T, _, _, hrule, hw⟩ := Terminal.select?_word hs
      rw [hrule, Terminal.rule_name] at he
      rw [Terminal.name_injective he] at hw
      exact hopen (hmatch.mpr ⟨d.lexeme, (Table.select?_cuts hs).2, hw⟩)
    rw [hopening, if_pos hrule]
  · intro g hg
    exact long_defect hg

theorem cut_short (hQ : Quotes quote S L) (hrest : rest = quote :: body)
    (hsingle : ¬ [quote, quote] <+: body) : table.cut settings rest = .error f ↔
      NoMatch (shortRule quote) rest ∧ f = defectFailure 1 (firstDefect true body) := by
  have hmatch : (∃ k, Ending.short quote 1 body = .closed k) ↔ _ :=
    short_closed_iff (no_escape hQ.kind)
  rw [← hrest, ← hQ.short_words] at hmatch
  have htake : ¬ body.take 2 = [quote, quote] := by
    intro h
    obtain ⟨s, rfl⟩ := take_two h
    exact hsingle ⟨s, rfl⟩
  have hquoted : Failure.quoted? rest = some (.short quote 1 body) := by
    rw [hrest, quoted_cons hQ.kind, if_neg htake]
  have hnil : [] ∉ S.words := by
    rw [hQ.short_words, mem_short]
    rintro ⟨_, _, heq⟩
    cases heq
  rw [← hQ.short_name]
  apply cut_quoted hQ.short_mem hQ.short_not_comment hnil hquoted hmatch
  · intro rule
    rw [hrest, opening_cons (no_bracket hQ.kind)]
    exact Or.inl (if_neg fun h => htake h.2.1)
  · -- a rule that is chosen has a match, and the one for three quotes cannot
    intro d hs hopen
    rw [hrest] at hs
    obtain ⟨T, hT, _, _, w, _, hwbody, hw⟩ := Terminal.select?_cons hs
    have honly : T = S ∨ T = L := by
      simpa using hQ.only T hT w hw
    rcases honly with rfl | rfl
    · refine absurd (hmatch.mpr ⟨quote :: w, ?_, hw⟩) hopen
      rw [hrest]
      exact List.cons_prefix_cons.mpr ⟨rfl, hwbody⟩
    · rw [hQ.long_words] at hw
      obtain ⟨v, _, heq⟩ := mem_long.mp hw
      have hw' : w = [quote, quote] ++ (v ++ [quote, quote, quote]) := (List.cons.inj heq).2
      rw [hw'] at hwbody
      exact absurd ((List.prefix_append _ _).trans hwbody) hsingle
  · intro g hg
    exact short_defect hg

end Quotes

theorem iriref_closes {w : List Char} (h : w ∈ Terminal.iriref.words) :
    ∃ v, w = '<' :: v ∧ '>' ∈ v := by
  obtain ⟨body, _, rfl⟩ := mem_between.mp h
  exact ⟨body ++ ['>'], rfl, by simp⟩

theorem iriref_not_open {w : List Char} (h : w ∈ Terminal.iriref.words) (hw : w <+: '<' :: r) :
    ¬ Failure.isOpenIri r = true := by
  intro hopen
  obtain ⟨v, rfl, hv⟩ := iriref_closes h
  have hr : '>' ∈ r := (List.cons_prefix_cons.mp hw).2.subset hv
  have hall := (Bool.and_eq_true_iff.mp hopen).1
  exact absurd (List.all_eq_true.mp hall _ hr) (by decide)

/-- At an angle bracket there is a failure if and only if an IRI is left open. -/
theorem cut_bracket (hrest : rest = '<' :: r) : table.cut settings rest = .error f ↔
    Failure.isOpenIri r = true ∧ f = { kind := .unterminated } := by
  have hopening : ∀ rule, Failure.ofOpening? rule rest =
      if rule = "PUNCT" && Failure.isOpenIri r then some { kind := .unterminated } else none := by
    rw [hrest]
    exact fun rule => rfl
  have hsign : ['<'] ∈ Terminal.punct.words :=
    Terminal.mem_punct.mpr (Or.inr ⟨'<', Form.mem_among.mpr (by decide), rfl⟩)
  have hstart : ['<'] <+: rest := by
    rw [hrest]
    exact ⟨r, rfl⟩
  obtain ⟨d, hd⟩ := Terminal.select?_of_word settings (by decide) (by decide) hstart
    hsign (by simp)
  by_cases hopen : Failure.isOpenIri r = true
  · -- an IRI would have to end, so the bracket has been taken for a sign
    have hrule : d.rule.name = "PUNCT" := by
      rw [hrest] at hd
      obtain ⟨T, hT, _, hrule, w, _, hwr, hw⟩ := Terminal.select?_cons hd
      have honly : T ∈ [Terminal.iriref, Terminal.punct] :=
        Terminal.begins_only (by decide) hT hw
      rw [hrule, Terminal.rule_name]
      simp only [List.mem_cons, List.not_mem_nil, or_false] at honly
      rcases honly with rfl | rfl
      · exact absurd hopen (iriref_not_open hw (List.cons_prefix_cons.mpr ⟨rfl, hwr⟩))
      · rfl
    have hcut : table.cut settings rest = .error { kind := .unterminated } := by
      rcases cut_cases settings rest with ⟨hs, _⟩ | ⟨e, he, hcases⟩
      · rw [hd] at hs; cases hs
      · cases hd.symm.trans he
        rw [hopening, hrule, hopen] at hcases
        rcases hcases with ⟨g, hg, hcut⟩ | ⟨hnone, _⟩
        · rw [hcut, ← Option.some.inj hg]
        · cases hnone
    rw [hcut]
    constructor
    · intro h
      cases h
      exact ⟨hopen, rfl⟩
    · rintro ⟨_, rfl⟩
      rfl
  · have hnone : ∀ rule, Failure.ofOpening? rule rest = none := by
      intro rule
      rw [hopening, Bool.eq_false_of_not_eq_true hopen, Bool.and_false]
      rfl
    exact iff_of_false (cut_word (by decide) (by decide) hstart hsign (by simp) hnone)
      fun h => hopen h.1

/-- Elsewhere there is a failure if and only if no token can begin. -/
theorem cut_other (hrest : rest = c :: r) (hd : c ≠ '"') (hs : c ≠ '\'') (hb : c ≠ '<') :
    table.cut settings rest = .error f ↔
      ¬ Opens settings c r ∧ f = Failure.unmatched rest := by
  have hopening : ∀ rule, Failure.ofOpening? rule rest = none := by
    intro rule
    rw [hrest, opening_cons hb, if_neg fun h => h.1.elim hd hs]
  have hselect : (∃ d, table.select? settings.admits (c :: r) = some d) ↔ Opens settings c r :=
    Terminal.select?_isSome_iff hd hs
  rw [← hrest] at hselect
  rcases cut_cases settings rest with ⟨hn, hcut⟩ | ⟨d, hd, ⟨g, ho, _⟩ | ⟨_, k, hcut⟩⟩
  · rw [hcut, ← hselect, hn]
    constructor
    · intro h
      cases h
      refine ⟨?_, rfl⟩
      rintro ⟨d, hd⟩
      cases hd
    · rintro ⟨_, rfl⟩
      rfl
  · rw [hopening] at ho
    cases ho
  · refine iff_of_false ?_ fun h => h.1 (hselect.mp ⟨d, hd⟩)
    rw [hcut]
    exact fun h => by cases h

theorem unmatched_other (hd : c ≠ '"') (hs : c ≠ '\'') : Failure.unmatched (c :: r) =
    { kind := if Failure.isBadLocalEscape (c :: r) then .invalidEscape else .noMatch } := by
  have hquoted : Failure.quoted? (c :: r) = none := by
    rw [Failure.quoted?, if_neg (not_or.mpr ⟨hd, hs⟩)]
  rw [Failure.unmatched, hquoted]
  rfl

end SparqlTokens.Sparql
