import SparqlTokens.Proofs.Lexing.Splitting
import SparqlTokens.Proofs.Sparql.Failures
import SparqlTokens.Proofs.Sparql.MaximalMunch
import SparqlTokens.Proofs.Sparql.Words

/-! Texts that are one token. A word of a token rule by itself never looks like the opening of
something unfinished, so it is cut as a whole, and by that rule. -/
namespace SparqlTokens.Sparql

attribute [local irreducible] table Terminal.rule

variable {settings : Settings} {T : Terminal}

namespace Terminal

theorem cut_munched {rest : List Char} {k : Cut} (h : table.cut settings rest = .ok k) :
    Munched settings rest k.lexeme k.rule := by
  obtain ⟨d, hd, hrule, hlexeme⟩ := Table.cut_ok h
  rw [hrule, hlexeme]
  exact select?_munched hd

theorem cut_lexeme {rest : List Char} {k : Cut} (h : table.cut settings rest = .ok k) :
    ∃ T ∈ tokens, T.Admitted settings ∧ k.rule = T.name ∧ k.lexeme ∈ T.words := by
  obtain ⟨d, hd, hrule, hlexeme⟩ := Table.cut_ok h
  obtain ⟨T, hT, ha, hd', hw⟩ := select?_word hd
  exact ⟨T, hT, ha, by rw [hrule, hd', rule_name], hlexeme ▸ hw⟩

/-- The rule for truth values stands before the one for names. -/
theorem boolean_first {w : List Char} (hw : w ∈ boolean.words) :
    priority.find? (fun name => table.check? w name = some true) ≠ some ident.name := by
  intro h
  rw [← List.take_append_drop 23 priority, List.find?_append] at h
  cases hf : (priority.take 23).find? fun name => decide (table.check? w name = some true) with
  | some name =>
    rw [hf] at h
    cases h
    exact absurd (List.mem_of_find?_eq_some hf) (by decide)
  | none =>
    have hnot := List.find?_eq_none.mp hf boolean.name (by decide)
    exact hnot (decide_eq_true ((check?_iff boolean w).mpr hw))

/-- The first rule that accepts a word of a token rule is that rule, unless the word is a truth
value. -/
theorem first_accepting (hT : T ∈ tokens) {w : List Char} (hw : w ∈ T.words) {rule : String}
    (h : priority.find? (fun name => table.check? w name = some true) = some rule) :
    rule = T.name ∨ T = ident ∧ w ∈ boolean.words := by
  have hmem := List.mem_of_find?_eq_some h
  rw [priority_tokens] at hmem
  obtain ⟨S, hS, rfl⟩ := List.mem_map.mp hmem
  have haccepts := List.find?_some h
  have hwS : w ∈ S.words := (check?_iff S w).mp (of_decide_eq_true haccepts)
  rcases tokens_apart hS hT hwS hw with rfl | ⟨hS', hT'⟩
  · exact Or.inl rfl
  · simp only [List.mem_cons, List.not_mem_nil, or_false] at hS' hT'
    rcases hS' with rfl | rfl
    · rcases hT' with rfl | rfl
      · exact Or.inl rfl
      · exact Or.inr ⟨rfl, hwS⟩
    · rcases hT' with rfl | rfl
      · exact absurd h (boolean_first hw)
      · exact Or.inl rfl

theorem quoted_no_error (hT : T ∈ tokens) {c : Char} (hq : c = '"' ∨ c = '\'') {w v : List Char}
    (hw : c :: w ∈ T.words) (hnext : v.head? ≠ some c) {f : Failure} :
    table.cut settings (c :: (w ++ v)) ≠ .error f := by
  intro hcut
  have hstart : c :: w <+: c :: (w ++ v) := ⟨v, rfl⟩
  obtain ⟨S, L, hQ⟩ := quotes_of hq
  have honly : T = S ∨ T = L := by
    simpa using hQ.only T hT w hw
  rcases honly with rfl | rfl
  · have hshort := hw
    rw [hQ.short_words] at hshort
    have hsingle := short_before (no_escape hq) hshort hnext
    obtain ⟨hno, _⟩ := (cut_short hQ rfl hsingle).mp hcut
    rw [← hQ.short_name, noMatch_iff] at hno
    exact hno ⟨_, hstart, hw⟩
  · have hlong := hw
    rw [hQ.long_words] at hlong
    obtain ⟨body, _, heq⟩ := mem_long.mp hlong
    have hrest : c :: (w ++ v) = c :: c :: c :: (body ++ [c, c, c] ++ v) := by
      rw [(List.cons.inj heq).2]
      simp
    obtain ⟨hno, _⟩ := (cut_long hQ hrest).mp hcut
    rw [← hQ.long_name, noMatch_iff] at hno
    exact hno ⟨_, hstart, hw⟩

theorem bracket_no_error (hT : T ∈ tokens) {w : List Char} (hw : '<' :: w ∈ T.words)
    {f : Failure} : table.cut settings ('<' :: w) ≠ .error f := by
  intro hcut
  obtain ⟨hopen, _⟩ := (cut_bracket rfl).mp hcut
  have honly : T ∈ [iriref, punct] := begins_only (by decide) hT hw
  simp only [List.mem_cons, List.not_mem_nil, or_false] at honly
  rcases honly with rfl | rfl
  · exact iriref_not_open hw (List.prefix_refl _) hopen
  · rcases mem_punct.mp hw with hpair | ⟨d, _, heq⟩
    · simp at hpair
      subst hpair
      exact absurd hopen (by decide)
    · rw [(List.cons.inj heq).2] at hopen
      exact absurd hopen (by decide)

theorem other_no_error (hT : T ∈ tokens) (ha : T.Admitted settings) {c : Char}
    (hq : ¬ (c = '"' ∨ c = '\'')) (hb : c ≠ '<') {w v : List Char} (hw : c :: w ∈ T.words)
    {f : Failure} : table.cut settings (c :: (w ++ v)) ≠ .error f := by
  intro hcut
  obtain ⟨hd, hs⟩ := not_or.mp hq
  obtain ⟨hno, _⟩ := (cut_other rfl hd hs hb).mp hcut
  rcases word_opens hT ha hw (List.prefix_append w v) with h | h
  · exact hno h
  · exact hq h

/-- A word is cut from a text, if it is not two quotes before a third, nor a bracket before more. -/
theorem cut_succeeds (hT : T ∈ tokens) (ha : T.Admitted settings) {c : Char} {w v : List Char}
    (hw : c :: w ∈ T.words) (hquote : c = '"' ∨ c = '\'' → v.head? ≠ some c)
    (hbracket : c = '<' → v = []) : ∃ k, table.cut settings (c :: (w ++ v)) = .ok k := by
  cases hcut : table.cut settings (c :: (w ++ v)) with
  | ok k => exact ⟨k, rfl⟩
  | error f =>
    by_cases hq : c = '"' ∨ c = '\''
    · exact absurd hcut (quoted_no_error hT hq hw (hquote hq))
    by_cases hb : c = '<'
    · subst hb
      rw [hbracket rfl, List.append_nil] at hcut
      exact absurd hcut (bracket_no_error hT hw)
    · exact absurd hcut (other_no_error hT ha hq hb hw)

theorem prefix_beyond {u w x : List Char} (hu : u <+: w ++ x) (hlt : w.length < u.length) :
    ∃ c y, u = w ++ c :: y ∧ c :: y <+: x := by
  have hstart : w <+: u := List.prefix_of_prefix_length_le (List.prefix_append w x) hu hlt.le
  obtain ⟨z, rfl⟩ := hstart
  have hz : z <+: x := (List.prefix_append_right_inj w).mp hu
  have hne : z ≠ [] := by
    rintro rfl
    simp at hlt
  obtain ⟨c, y, rfl⟩ := List.exists_cons_of_ne_nil hne
  exact ⟨c, y, rfl, hz⟩

/-- A word that nothing extends is cut, by its own rule unless it is a truth value. -/
theorem cut_extended (hT : T ∈ tokens) (ha : T.Admitted settings) {w v : List Char}
    (hw : w ∈ T.words) (hquote : ∀ c, c = '"' ∨ c = '\'' → w.head? = some c → v.head? ≠ some c)
    (hbracket : w.head? = some '<' → v = [])
    (hlongest : ∀ S ∈ tokens, ∀ u, u <+: w ++ v → u ∈ S.words → u.length ≤ w.length) :
    ∃ k, table.cut settings (w ++ v) = .ok k ∧ k.lexeme = w ∧
      (k.rule = T.name ∨ T = ident ∧ w ∈ boolean.words) := by
  obtain ⟨c, x, rfl⟩ := List.exists_cons_of_ne_nil (token_nonempty hT hw)
  obtain ⟨k, hk⟩ := cut_succeeds hT ha hw (fun hc => hquote c hc rfl)
    (fun hc => hbracket (congrArg some hc))
  have hmunched := cut_munched hk
  have hstart : c :: x <+: c :: (x ++ v) := ⟨v, rfl⟩
  obtain ⟨S, hS, _, _, hwS⟩ := cut_lexeme hk
  have hle := hlongest S hS k.lexeme hmunched.start hwS
  have hge := hmunched.longest _ hstart (accepted_iff.mpr ⟨T, hT, ha, hw⟩)
  have hlexeme : k.lexeme = c :: x :=
    (List.prefix_of_prefix_length_le hmunched.start hstart hle).eq_of_length (le_antisymm hle hge)
  have hfirst := hmunched.first
  rw [hlexeme] at hfirst
  exact ⟨k, hk, hlexeme, first_accepting hT hw hfirst⟩

theorem cut_is {rest w : List Char} {m : Cut} {T : Terminal} {kind : Kind}
    (hm : table.cut settings rest = .ok m) (hlexeme : m.lexeme = w) (hrule : m.rule = T.name)
    (hkind : Kind.ofRule? T.name (String.ofList w) = some kind) :
    table.cut settings rest = .ok ⟨kind, T.name, w⟩ := by
  have hsame : m.kind = kind := by
    apply Table.cut_kind_eq hm
    rw [hrule, hlexeme, hkind]
  cases m
  cases hlexeme
  cases hrule
  cases hsame
  exact hm

theorem cut_whole (hT : T ∈ tokens) (ha : T.Admitted settings) {w : List Char} (hw : w ∈ T.words) :
    ∃ k, table.cut settings w = .ok k ∧ k.lexeme = w ∧
      (k.rule = T.name ∨ T = ident ∧ w ∈ boolean.words) := by
  have hcut := cut_extended (v := []) hT ha hw (fun c _ _ h => by cases h) (fun _ => rfl) ?_
  · rwa [List.append_nil] at hcut
  · intro S _ u hu _
    rw [List.append_nil] at hu
    exact hu.length_le

theorem cut_own (hT : T ∈ tokens) (ha : T.Admitted settings) {w : List Char} (hw : w ∈ T.words)
    (htruth : T = ident → w ∉ boolean.words) :
    ∃ k, table.cut settings w = .ok k ∧ k.lexeme = w ∧ k.rule = T.name := by
  obtain ⟨k, hk, hlexeme, hrule | ⟨hident, hboolean⟩⟩ := cut_whole hT ha hw
  · exact ⟨k, hk, hlexeme, hrule⟩
  · exact absurd hboolean (htruth hident)

/-- A word of a token rule is read as one token, under any settings that let its tokens through. -/
theorem read_word (hT : T ∈ tokens) (ha : T.Admitted settings) {w : List Char} (hw : w ∈ T.words)
    (htruth : T = ident → w ∉ boolean.words) {kind : Kind}
    (hkind : Kind.ofRule? T.name (String.ofList w) = some kind) (hshown : kind.isTrivia = false) :
    ∃ t, table.items settings w = [.token t] ∧ t.rule = T.name ∧ t.lexeme.toList = w ∧
      t.kind = kind := by
  obtain ⟨k, hcut, hlexeme, hrule⟩ := cut_own hT ha hw htruth
  have hk : k.kind = kind := by
    apply Table.cut_kind_eq hcut
    rw [hrule, hlexeme, hkind]
  have hvisible : Scan.isShown settings k = true := by
    rw [Scan.isShown, hk, hshown, Bool.not_false, Bool.or_true]
  obtain ⟨t, ht, rfl⟩ := Table.items_of_cut hcut hlexeme hvisible
  exact ⟨t, ht, hrule, hlexeme, hk⟩

end Terminal

open Terminal Scan

/-- The settings under which all rules take part and all tokens are handed out. -/
def everything (stop : Bool) (radius : ℕ) : Settings where
  emitWhitespace := true
  stopOnFirstError := stop
  comments := true
  snippetRadius := radius

theorem admitted_everything {stop : Bool} {radius : ℕ} : T.Admitted (everything stop radius) :=
  Or.inl rfl

/-- Reading a text gives one token of a rule and nothing else, and the text is its lexeme. -/
def OneToken (settings : Settings) (text : List Char) (rule : String) : Prop :=
  ∃ t, table.items settings text = [.token t] ∧ t.rule = rule ∧ t.lexeme.toList = text

theorem oneToken_iff (he : settings.emitWhitespace = true) {text : List Char} {rule : String} :
    OneToken settings text rule ↔
      ∃ k, table.cut settings text = .ok k ∧ k.lexeme = text ∧ k.rule = rule := by
  constructor
  · rintro ⟨t, ht, hrule, hlexeme⟩
    obtain ⟨hcut, _⟩ := (Table.items_single he).mp ⟨t, ht, rfl⟩
    exact ⟨t.cut, hcut, hlexeme, hrule⟩
  · rintro ⟨k, hcut, hlexeme, hrule⟩
    obtain ⟨t, ht, rfl⟩ := (Table.items_single he).mpr ⟨hcut, hlexeme⟩
    exact ⟨t, ht, hrule, hlexeme⟩

theorem emitted_cut {source : List Char} {t : Token}
    (h : Emits (ofText table settings source) (.token t)) :
    ∃ ahead, table.cut settings ahead = .ok t.cut := by
  obtain ⟨u, hu, _, hi⟩ := emitted_running h
  obtain ⟨c, hc, rfl⟩ := step_token hi
  rw [hu.table, hu.settings] at hc
  exact ⟨u.ahead, by rw [hc, placeToken_cut]⟩

/-- The lexeme of what was cut tells its rule and its kind. -/
theorem cut_eq_of_lexeme {other : Settings} {rest rest' : List Char} {k m : Cut}
    (hm : table.cut other rest' = .ok m) (hk : table.cut settings rest = .ok k)
    (hlexeme : m.lexeme = k.lexeme) : m = k := by
  have hrule : m.rule = k.rule := by
    have hfirst := (cut_munched hm).first
    rw [hlexeme, (cut_munched hk).first] at hfirst
    exact (Option.some.inj hfirst).symm
  have hkind : m.kind = k.kind := by
    apply Table.cut_kind_eq hm
    rw [hrule, hlexeme]
    exact Table.cut_kind hk
  cases m
  cases k
  cases hlexeme
  cases hrule
  cases hkind
  rfl

/-- What was cut from a text is cut again from its lexeme alone, whatever stood around it. -/
theorem cut_again {other : Settings} {rest : List Char} {k : Cut}
    (h : table.cut settings rest = .ok k) (hc : other.comments = true) :
    table.cut other k.lexeme = .ok k := by
  obtain ⟨T, hT, _, _, hw⟩ := cut_lexeme h
  have ha : T.Admitted other := Or.inl hc
  obtain ⟨m, hm, hlexeme, _⟩ := cut_whole hT ha hw
  rw [hm, cut_eq_of_lexeme hm h hlexeme]

def truthWords : List (List Char) := [['t', 'r', 'u', 'e'], ['f', 'a', 'l', 's', 'e']]

theorem mem_truthWords {w : List Char} : w ∈ truthWords ↔ w ∈ boolean.words := by
  rw [mem_boolean, truthWords, List.mem_cons, List.mem_singleton]

/-- A token rule accepts a text as a whole if and only if reading it gives one token of that rule.
Only the truth values, which the rule for names accepts too, are no names. So the lexeme of any
token, read by itself, gives the same token. -/
theorem check_is_one_token (stop : Bool) (radius : ℕ) (text : List Char) :
    (∀ name ∈ priority, ¬ (name = "IDENT" ∧ text ∈ truthWords) →
      (table.check? text name = some true ↔ OneToken (everything stop radius) text name)) ∧
    (text ∈ truthWords → table.check? text "IDENT" = some true ∧
      OneToken (everything stop radius) text "BooleanLiteral") ∧
    ∀ settings source t, Emits (ofText table settings source) (.token t) →
      ∃ u, table.items (everything stop radius) t.lexeme.toList = [.token u] ∧
        u.rule = t.rule ∧ u.kind = t.kind ∧ u.lexeme = t.lexeme := by
  refine ⟨?_, ?_, ?_⟩
  · intro name hname hexcept
    rw [priority_tokens] at hname
    obtain ⟨T, hT, rfl⟩ := List.mem_map.mp hname
    rw [check?_iff, oneToken_iff rfl]
    constructor
    · intro hw
      apply cut_own hT admitted_everything hw
      rintro rfl htruth
      exact hexcept ⟨rfl, mem_truthWords.mpr htruth⟩
    · rintro ⟨k, hk, rfl, hrule⟩
      obtain ⟨S, _, _, hS, hw⟩ := cut_lexeme hk
      rwa [name_injective (hrule.symm.trans hS)]
  · intro htruth
    have hw : text ∈ boolean.words := mem_truthWords.mp htruth
    exact ⟨(check?_iff ident text).mpr (boolean_ident hw), (oneToken_iff rfl).mpr
      (cut_own (T := boolean) (by decide) admitted_everything hw nofun)⟩
  · intro settings source t h
    obtain ⟨ahead, hcut⟩ := emitted_cut h
    have hcomments : (everything stop radius).comments = true := rfl
    have hagain := cut_again hcut hcomments
    obtain ⟨u, hu, hsame⟩ := (Table.items_single rfl).mpr ⟨hagain, rfl⟩
    obtain ⟨hkind, hrule, hlexeme⟩ := Cut.mk.inj hsame
    exact ⟨u, hu, hrule, hkind, String.toList_inj.mp hlexeme⟩

/-- Three quotes and three quotes are one empty text, not three of two quotes each; a truth value is
no name; and what is cut before a blank is cut without it. -/
theorem empty_long_string_is_one_token :
    OneToken (everything true 24) ['\'', '\'', '\'', '\'', '\'', '\''] "STRING_LITERAL_LONG1" ∧
    OneToken (everything true 24) ['t', 'r', 'u', 'e'] "BooleanLiteral" ∧
    ∃ t, Emits (ofText table (everything true 24) ['-', ' ', '1']) (.token t) ∧
      ∃ u, table.items (everything true 24) t.lexeme.toList = [.token u] ∧
        u.rule = t.rule ∧ u.kind = t.kind ∧ u.lexeme = t.lexeme := by
  refine ⟨?_, ?_, ?_⟩
  · refine ((check_is_one_token true 24 _).1 "STRING_LITERAL_LONG1" (by decide) (by decide)).mp ?_
    exact (check?_iff stringLong1 _).mpr (mem_long.mpr ⟨[], Language.nil_mem_kstar _, rfl⟩)
  · exact ((check_is_one_token true 24 ['t', 'r', 'u', 'e']).2.1 (by decide)).2
  · have hsign : ['-'] ∈ punct.words :=
      mem_punct.mpr (Or.inr ⟨'-', Form.mem_among.mpr (by decide), rfl⟩)
    have ha : punct.Admitted (everything true 24) := admitted_everything
    obtain ⟨k, hk⟩ := cut_succeeds (v := [' ', '1']) (by decide) ha hsign (by decide) (by decide)
    have hend : ¬ (ofText table (everything true 24) ['-', ' ', '1']).Ended := by
      rintro (h | h)
      · cases h
      · cases h
    have hstep := congrArg Prod.fst (step_cut (s := ofText table (everything true 24)
      ['-', ' ', '1']) hk)
    have hemits := emits_first hend hstep
    exact ⟨_, hemits, (check_is_one_token true 24 []).2.2 _ _ _ hemits⟩

end SparqlTokens.Sparql
