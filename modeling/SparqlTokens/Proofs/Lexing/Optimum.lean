import SparqlTokens.Proofs.Grammar.Ranks
import SparqlTokens.Proofs.Lexing.Selection
import SparqlTokens.Proofs.Text.Lines

/-! The choice among token rules as an optimum, for any table that could be built. The candidates at
a byte offset are the token rules with a match there that counts, by rank; the one chosen among
those that are let through is the longest, and of equally long ones that of the smallest rank. -/
namespace SparqlTokens

open Text

theorem pairwise_find? {α : Type} {R : α → α → Prop} {p : α → Bool} {l : List α}
    (hl : l.Pairwise R) {a b : α} (ha : l.find? p = some a) (hb : b ∈ l) (hp : p b = true) :
    b = a ∨ R a b := by
  obtain ⟨_, before, behind, rfl, hbefore⟩ := List.find?_eq_some_iff_append.mp ha
  rcases List.mem_append.mp hb with hmem | hmem
  · have hno := hbefore b hmem
    rw [hp] at hno
    cases hno
  · rcases List.mem_cons.mp hmem with rfl | hmem
    · exact .inl rfl
    · exact .inr ((List.pairwise_cons.mp (List.pairwise_append.mp hl).2.1).1 b hmem)

/-- A byte offset stands between two characters of a text, or at one of its ends. -/
def Text.Between (text : List Char) (offset : ℕ) : Prop :=
  ∃ before rest, text = before ++ rest ∧ byteSize before = offset

theorem Text.byteSize_lt {u v : List Char} (h : u <+: v) (hl : u.length < v.length) :
    byteSize u < byteSize v := by
  obtain ⟨r, rfl⟩ := h
  have hr : r ≠ [] := by
    intro he
    simp [he] at hl
  have hpos := byteSize_pos hr
  rw [byteSize_append]
  omega

namespace Candidate

/-- Longer, or as long and of a rule of smaller rank. -/
def Better (c d : Candidate) : Prop :=
  d.bytes < c.bytes ∨ d.bytes = c.bytes ∧ c.rule.Precedes d.rule

theorem Better.asymm {c d : Candidate} (h : c.Better d) : ¬ d.Better c := by
  rintro (hlt' | ⟨he', hprecedes'⟩)
  · rcases h with hlt | ⟨he, _⟩ <;> omega
  · rcases h with hlt | ⟨_, hprecedes⟩
    · omega
    · exact hprecedes.asymm hprecedes'

section Ranked

variable {cs : List Candidate} {rest : List Char}
  (hranked : cs.Pairwise fun c d => c.rule.Precedes d.rule)
  (hstarts : ∀ c ∈ cs, c.lexeme <+: rest)
include hranked hstarts

/-- Among starts of one text it makes no difference whether characters or bytes are counted. -/
theorem longest?_better {c d : Candidate} (hc : longest? cs = some c) (hd : d ∈ cs) (hne : d ≠ c) :
    c.Better d := by
  have hcmem := longest?_mem hc
  have hle := longest?_max hc d hd
  have hstart := List.prefix_of_prefix_length_le (hstarts d hd) (hstarts c hcmem) hle
  rcases hle.lt_or_eq with hlt | he
  · exact .inl (byteSize_lt hstart hlt)
  · refine .inr ⟨?_, ?_⟩
    · rw [bytes, bytes, hstart.eq_of_length he]
    · exact (pairwise_find? hranked (longest?_first hc) hd (by simpa using he)).resolve_left hne

theorem longest?_iff {c : Candidate} :
    longest? cs = some c ↔ c ∈ cs ∧ ∀ d ∈ cs, d ≠ c → c.Better d := by
  constructor
  · intro hc
    exact ⟨longest?_mem hc, fun d hd => longest?_better hranked hstarts hc hd⟩
  · rintro ⟨hmem, hbest⟩
    cases hlongest : longest? cs with
    | none =>
      rw [longest?_none.mp hlongest] at hmem
      cases hmem
    | some d =>
      by_cases he : d = c
      · rw [he]
      · have hd := hbest d (longest?_mem hlongest) he
        exact absurd (longest?_better hranked hstarts hlongest hmem (Ne.symm he)) hd.asymm

end Ranked

end Candidate

namespace Table

/-- A token rule matches some bytes at an offset, and they are no truth value before the rest of a
name. -/
structure Matches (t : Table) (text : List Char) (offset : ℕ) (r : Rule) (n : ℕ) : Prop where
  declared : r ∈ t.rules
  ranked : r.rank?.isSome = true
  found : (dropBytes? offset text).bind r.leadingBytes? = some n
  positive : 0 < n
  apart : ¬ (r.name = "BooleanLiteral" ∧
    ∃ m, t.matchAt? "PN_CHARS" text (offset + n) = some (some m))

section Matching

variable {t : Table} {r : Rule} {rest : List Char}

theorem leadingBytes?_isSome : (r.leadingBytes? rest).isSome = (r.leadingLength? rest).isSome := by
  rw [Rule.leadingBytes?, Option.isSome_map]

theorem continuesName_iff (before : List Char) : t.continuesName rest = true ↔
    ∃ m, t.matchAt? "PN_CHARS" (before ++ rest) (byteSize before) = some (some m) := by
  rw [continuesName, matchAt?, dropBytes?_byteSize_append]
  cases t.rule? "PN_CHARS" with
  | none => simp
  | some r =>
    simp only [Option.map_some, Option.bind_some, Option.some.injEq]
    rw [← Option.isSome_iff_exists, leadingBytes?_isSome]

theorem candidate?_matches (before : List Char) (hr : r ∈ t.rules) (hrank : r.rank?.isSome = true)
    {n : ℕ} : (∃ c, t.candidate? rest r = some c ∧ c.bytes = n) ↔
      t.Matches (before ++ rest) (byteSize before) r n := by
  have hfound : (dropBytes? (byteSize before) (before ++ rest)).bind r.leadingBytes? =
      (r.leadingLength? rest).map fun k => byteSize (rest.take k) := by
    rw [dropBytes?_byteSize_append]
    rfl
  have hgoes (k : ℕ) : t.continuesName (rest.drop k) = true ↔
      ∃ m, t.matchAt? "PN_CHARS" (before ++ rest) (byteSize before + byteSize (rest.take k)) =
        some (some m) := by
    rw [continuesName_iff (before ++ rest.take k), List.append_assoc, List.take_append_drop,
      byteSize_append]
  constructor
  · rintro ⟨c, hc, rfl⟩
    have hcuts := candidate?_cuts hc
    obtain ⟨k, hk, _, hapart, rfl⟩ := candidate?_iff.mp hc
    refine ⟨hr, hrank, ?_, byteSize_pos hcuts.1, ?_⟩
    · rw [hfound, hk]
      rfl
    · rwa [hgoes k] at hapart
  · intro hm
    have hbytes := hm.found
    rw [hfound, Option.map_eq_some_iff] at hbytes
    obtain ⟨k, hk, rfl⟩ := hbytes
    have hne : k ≠ 0 := by
      intro he
      have hpositive := hm.positive
      simp [he] at hpositive
    refine ⟨⟨r, rest.take k⟩, candidate?_iff.mpr ⟨k, hk, hne, ?_, rfl⟩, rfl⟩
    rw [hgoes k]
    exact hm.apart

end Matching

variable {properties : Pattern.Properties} {definitions : List Definition} {priority : List String}
  {t : Table}

section Built

variable (h : build definitions priority properties = .ok t)
include h

theorem candidates_ranked (rest : List Char) :
    (t.candidates rest).Pairwise fun c d => c.rule.Precedes d.rule := by
  rw [candidates_eq]
  apply (tokenRules_ranked h).filterMap
  intro r s hprecedes c hc d hd
  obtain ⟨_, _, _, _, rfl⟩ := candidate?_iff.mp hc
  obtain ⟨_, _, _, _, rfl⟩ := candidate?_iff.mp hd
  exact hprecedes

theorem candidates_matches (before rest : List Char) {r : Rule} {n : ℕ} :
    (∃ c ∈ t.candidates rest, c.rule = r ∧ c.bytes = n) ↔
      t.Matches (before ++ rest) (byteSize before) r n := by
  constructor
  · rintro ⟨c, hc, rfl, hn⟩
    obtain ⟨r, hr, hcandidate⟩ := mem_candidates hc
    obtain ⟨hdeclared, hrank⟩ := (mem_tokenRules h).mp hr
    have hrule : c.rule = r := by
      obtain ⟨_, _, _, _, rfl⟩ := candidate?_iff.mp hcandidate
      rfl
    rw [hrule]
    exact (candidate?_matches before hdeclared hrank).mp ⟨c, hcandidate, hn⟩
  · intro hm
    obtain ⟨c, hc, hn⟩ := (candidate?_matches before hm.declared hm.ranked).mpr hm
    refine ⟨c, ?_, ?_, hn⟩
    · rw [candidates_eq, List.mem_filterMap]
      exact ⟨r, (mem_tokenRules h).mpr ⟨hm.declared, hm.ranked⟩, hc⟩
    · obtain ⟨_, _, _, _, rfl⟩ := candidate?_iff.mp hc
      rfl

end Built

/-- The candidate chosen among those let through: better than any other of them. -/
structure Chosen (t : Table) (keep : Candidate → Bool) (text : List Char) (offset : ℕ)
    (c : Candidate) : Prop where
  candidate : c ∈ t.candidatesAt text offset
  kept : keep c = true
  best : ∀ d ∈ t.candidatesAt text offset, keep d = true → d ≠ c → c.Better d

theorem candidatesAt_between (before rest : List Char) :
    t.candidatesAt (before ++ rest) (byteSize before) = t.candidates rest := by
  rw [candidatesAt, dropBytes?_byteSize_append]

theorem dropBytes?_outside {text : List Char} {offset : ℕ} (ho : ¬ Between text offset) :
    dropBytes? offset text = none := by
  cases hrest : dropBytes? offset text with
  | none => rfl
  | some rest =>
    obtain ⟨before, htext, hoffset⟩ := dropBytes?_eq_some_iff.mp hrest
    exact absurd ⟨before, rest, htext, hoffset⟩ ho

theorem candidatesAt_outside {text : List Char} {offset : ℕ} (ho : ¬ Between text offset) :
    t.candidatesAt text offset = [] := by
  rw [candidatesAt, dropBytes?_outside ho]

theorem candidatesAt_lexeme {text : List Char} {offset : ℕ} {c : Candidate}
    (hc : c ∈ t.candidatesAt text offset) :
    slice? offset (offset + c.bytes) text = some c.lexeme := by
  by_cases ho : Between text offset
  · obtain ⟨before, rest, rfl, rfl⟩ := ho
    rw [candidatesAt_between] at hc
    obtain ⟨r, _, hcandidate⟩ := mem_candidates hc
    obtain ⟨behind, hbehind⟩ := (candidate?_cuts hcandidate).2
    rw [← hbehind]
    exact slice?_between before c.lexeme behind
  · rw [candidatesAt_outside ho] at hc
    cases hc

section Chosen

variable (h : build definitions priority properties = .ok t) (text : List Char) (offset : ℕ)
include h

theorem candidatesAt_matches {r : Rule} {n : ℕ} :
    (∃ c ∈ t.candidatesAt text offset, c.rule = r ∧ c.bytes = n) ↔
      t.Matches text offset r n := by
  by_cases ho : Between text offset
  · obtain ⟨before, rest, rfl, rfl⟩ := ho
    rw [candidatesAt_between]
    exact candidates_matches h before rest
  · constructor
    · rintro ⟨c, hc, _⟩
      rw [candidatesAt_outside ho] at hc
      cases hc
    · intro hm
      have hfound := hm.found
      rw [dropBytes?_outside ho] at hfound
      cases hfound

theorem candidatesAt_ranked :
    (t.candidatesAt text offset).Pairwise fun c d => c.rule.Precedes d.rule := by
  by_cases ho : Between text offset
  · obtain ⟨before, rest, rfl, rfl⟩ := ho
    rw [candidatesAt_between]
    exact candidates_ranked h rest
  · rw [candidatesAt_outside ho]
    exact List.Pairwise.nil

omit h in
theorem candidatesAt_starts : ∃ rest, ∀ c ∈ t.candidatesAt text offset, c.lexeme <+: rest := by
  unfold candidatesAt
  cases dropBytes? offset text with
  | none => exact ⟨[], by simp⟩
  | some rest =>
    refine ⟨rest, fun c hc => ?_⟩
    obtain ⟨r, _, hcandidate⟩ := mem_candidates hc
    exact (candidate?_cuts hcandidate).2

theorem selectWhere?_chosen (keep : Candidate → Bool) {c : Candidate} :
    t.selectWhere? keep text offset = some c ↔ t.Chosen keep text offset c := by
  obtain ⟨rest, hstarts⟩ := candidatesAt_starts (t := t) text offset
  have hmem : ∀ d, d ∈ (t.candidatesAt text offset).filter keep ↔
      d ∈ t.candidatesAt text offset ∧ keep d = true := fun d => List.mem_filter
  rw [selectWhere?, Candidate.longest?_iff ((candidatesAt_ranked h text offset).filter keep)
    fun d hd => hstarts d ((hmem d).mp hd).1]
  constructor
  · rintro ⟨hc, hbest⟩
    obtain ⟨hc, hk⟩ := (hmem c).mp hc
    exact ⟨hc, hk, fun d hd hkd => hbest d ((hmem d).mpr ⟨hd, hkd⟩)⟩
  · intro hc
    refine ⟨(hmem c).mpr ⟨hc.candidate, hc.kept⟩, fun d hd => ?_⟩
    obtain ⟨hd, hkd⟩ := (hmem d).mp hd
    exact hc.best d hd hkd

omit h in
theorem selectWhere?_none (keep : Candidate → Bool) :
    t.selectWhere? keep text offset = none ↔
      ∀ c ∈ t.candidatesAt text offset, keep c = false := by
  rw [selectWhere?, Candidate.longest?_none, List.filter_eq_nil_iff]
  simp only [Bool.not_eq_true]

end Chosen

/-- At any byte offset of any text, the candidates are the matches of token rules, by rank and each
rule at most once, and none where the offset splits a character or lies behind the end. Whatever
candidates are let through, there is no choice only if there are none, and otherwise the choice is
the best of them. -/
theorem candidates_and_choice (h : build definitions priority properties = .ok t)
    (text : List Char) (offset : ℕ) :
    (∀ r ∈ t.rules, r.rank? = priority.idxOf? r.name) ∧
    (∀ r n, (∃ c ∈ t.candidatesAt text offset, c.rule = r ∧ c.bytes = n) ↔
      t.Matches text offset r n) ∧
    (∀ c ∈ t.candidatesAt text offset,
      slice? offset (offset + c.bytes) text = some c.lexeme) ∧
    ((t.candidatesAt text offset).Pairwise fun c d => c.rule.Precedes d.rule) ∧
    ((t.candidatesAt text offset).map (·.rule)).Nodup ∧
    (¬ Between text offset → t.candidatesAt text offset = []) ∧
    ∀ keep, (t.selectWhere? keep text offset = none ↔
        ∀ c ∈ t.candidatesAt text offset, keep c = false) ∧
      ∀ c, t.selectWhere? keep text offset = some c ↔ t.Chosen keep text offset c := by
  have hranked := candidatesAt_ranked h text offset
  refine ⟨fun r hr => build_ranks h hr, fun r n => candidatesAt_matches h text offset,
    fun c hc => candidatesAt_lexeme hc, hranked, ?_, candidatesAt_outside, fun keep => ?_⟩
  · exact List.pairwise_map.mpr (hranked.imp Rule.Precedes.ne)
  · exact ⟨selectWhere?_none text offset keep, fun c => selectWhere?_chosen h text offset keep⟩

/-- Two rules match equally long, and a third one shorter. -/
theorem chosen_by_rank :
    let definitions : List Definition := [⟨"A", "a"⟩, ⟨"B", "[ab]+"⟩, ⟨"C", "a(b|c)*"⟩]
    ∃ t, build definitions ["A", "C", "B"] = .ok t ∧
      ∃ c, c.rule.name = "C" ∧ c.lexeme = "ab".toList ∧
        t.Chosen (fun _ => true) "éab.".toList 2 c := by
  intro definitions
  have hchoice : ((build definitions ["A", "C", "B"]).toOption.bind fun t =>
      (t.selectWhere? (fun _ => true) "éab.".toList 2).map fun c => (c.rule.name, c.lexeme)) =
        some ("C", "ab".toList) := by decide +kernel
  cases ht : build definitions ["A", "C", "B"] with
  | error e =>
    rw [ht] at hchoice
    cases hchoice
  | ok t =>
    rw [ht] at hchoice
    obtain ⟨c, hc, hnamed⟩ := Option.map_eq_some_iff.mp hchoice
    obtain ⟨_, _, _, _, _, _, hselect⟩ := candidates_and_choice ht "éab.".toList 2
    exact ⟨t, rfl, c, congrArg Prod.fst hnamed, congrArg Prod.snd hnamed,
      ((hselect fun _ => true).2 c).mp hc⟩

end Table

end SparqlTokens
