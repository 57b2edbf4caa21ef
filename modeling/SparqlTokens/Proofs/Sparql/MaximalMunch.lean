import SparqlTokens.Proofs.Sparql.Cutting

/-! Maximal munch for the grammar: each token is the longest start of the text ahead that some rule
taking part accepts as a whole, and its rule is the first that accepts it. -/
namespace SparqlTokens.Sparql

attribute [local irreducible] table Terminal.rule

namespace Terminal

variable {settings : Settings} {rest : List Char} {c : Candidate} {S : Terminal}

theorem admitted_of_mem (h : table.select? settings.admits rest = some c)
    (hw : c.lexeme ∈ S.words) : S.Admitted settings := by
  by_contra hn
  have hcomment : S = comment := by
    by_contra hne
    exact hn (Or.inr hne)
  rw [hcomment] at hw
  obtain ⟨T, hT, ha, _, hwords⟩ := select?_word h
  rw [comment_disjoint hT hw hwords, ← hcomment] at ha
  exact hn ha

theorem select?_ties (h : table.select? settings.admits rest = some c) (hS : S ∈ tokens) :
    ((table.candidate? rest S.rule).any fun d =>
      settings.admits d.rule && decide (d.lexeme.length = c.lexeme.length)) = true ↔
    c.lexeme ∈ S.words := by
  have hc := Table.select?_cuts h
  constructor
  · intro hd
    obtain ⟨d, hd, hsame⟩ := (Option.any_eq_true _ _).mp hd
    have hlen : d.lexeme.length = c.lexeme.length :=
      of_decide_eq_true (Bool.and_eq_true_iff.mp hsame).2
    have heq : d.lexeme = c.lexeme := by
      rw [List.prefix_iff_eq_take.mp (Table.candidate?_cuts hd).2, hlen]
      exact (List.prefix_iff_eq_take.mp hc.2).symm
    rw [← heq]
    exact (candidate?_spec hd).2.1
  · intro hw
    have ha : S.Admitted settings := admitted_of_mem h hw
    rcases candidate?_word hc.2 hw hc.1 with ⟨d, hd⟩ | ⟨_, w, hlt, hwrest, hwords⟩
    · obtain ⟨hrule, hdwords, hmax⟩ := candidate?_spec hd
      have hge : c.lexeme.length ≤ d.lexeme.length := hmax _ hc.2 hw
      have hle : d.lexeme.length ≤ c.lexeme.length :=
        select?_longest h hS ha (Table.candidate?_cuts hd).2 hdwords
      apply (Option.any_eq_true _ _).mpr
      refine ⟨d, hd, Bool.and_eq_true_iff.mpr ⟨?_, decide_eq_true (le_antisymm hle hge)⟩⟩
      rw [hrule]
      exact admits_iff.mpr ha
    · have hle := select?_longest h (S := ident) (by decide) ident_admitted hwrest hwords
      omega

end Terminal

open Terminal Scan

/-- The names of the rules that take part in a run. -/
def admitted (settings : Settings) : List String :=
  priority.filter fun name => settings.comments || name ≠ "COMMENT"

/-- Whether some rule that takes part accepts the whole of a text. -/
def Accepted (settings : Settings) (w : List Char) : Prop :=
  ∃ name ∈ admitted settings, table.check? w name = some true

theorem accepted_iff {settings : Settings} {w : List Char} :
    Accepted settings w ↔ ∃ T ∈ tokens, T.Admitted settings ∧ w ∈ T.words := by
  have hname : ∀ T : Terminal, T.name = "COMMENT" ↔ T = comment := by
    intro T
    exact name_injective.eq_iff' rfl
  constructor
  · rintro ⟨name, hmem, hcheck⟩
    obtain ⟨hpriority, hadmitted⟩ := List.mem_filter.mp hmem
    rw [priority_tokens] at hpriority
    obtain ⟨T, hT, rfl⟩ := List.mem_map.mp hpriority
    refine ⟨T, hT, ?_, (check?_iff T w).mp hcheck⟩
    rw [Bool.or_eq_true, decide_eq_true_iff, Ne, hname] at hadmitted
    exact hadmitted
  · rintro ⟨T, hT, hadmitted, hw⟩
    refine ⟨T.name, List.mem_filter.mpr ⟨List.mem_map_of_mem hT, ?_⟩, (check?_iff T w).mpr hw⟩
    rw [Bool.or_eq_true, decide_eq_true_iff, Ne, hname]
    exact hadmitted

/-- The longest start of the text ahead that some rule accepts as a whole, with the name of the
first rule that does. -/
structure Munched (settings : Settings) (ahead lexeme : List Char) (rule : String) : Prop where
  nonempty : lexeme ≠ []
  start : lexeme <+: ahead
  accepted : Accepted settings lexeme
  longest : ∀ u, u <+: ahead → Accepted settings u → u.length ≤ lexeme.length
  first : priority.find? (fun name => table.check? lexeme name = some true) = some rule

theorem select?_munched {settings : Settings} {rest : List Char} {c : Candidate}
    (h : table.select? settings.admits rest = some c) :
    Munched settings rest c.lexeme c.rule.name := by
  obtain ⟨T, hT, ha, hrule, hwords⟩ := select?_word h
  have hcuts := Table.select?_cuts h
  refine ⟨hcuts.1, hcuts.2, accepted_iff.mpr ⟨T, hT, ha, hwords⟩, ?_, ?_⟩
  · intro u hu haccepted
    obtain ⟨S, hS, haS, hwS⟩ := accepted_iff.mp haccepted
    exact select?_longest h hS haS hu hwS
  · obtain ⟨r, hfind, hcand⟩ := Table.select?_first h
    rw [tokenRules_eq, List.find?_map, Option.map_eq_some_iff] at hfind
    obtain ⟨S, hS, rfl⟩ := hfind
    have hSrule : c.rule = S.rule := (candidate?_spec hcand).1
    have hsame : tokens.find? (fun R => table.check? c.lexeme R.name = some true) = some S := by
      rw [← hS]
      apply List.find?_congr
      intro R hR
      rw [Function.comp_apply, Bool.eq_iff_iff, select?_ties h hR]
      exact decide_eq_true_iff.trans (check?_iff R c.lexeme)
    rw [priority_tokens, List.find?_map, hSrule, rule_name]
    exact congrArg (Option.map name) hsame

/-- Whatever calls of `next` and `restart` are made, and whatever the settings, each token is the
longest start of the text from its place on that some rule taking part accepts as a whole, and its
rule is the first that accepts it. -/
theorem tokens_are_munched {settings : Settings} {text : List Char} {t : Token}
    (h : Emits (ofText table settings text) (.token t)) :
    ∃ ahead, Text.dropBytes? t.range.start text = some ahead ∧
      Munched settings ahead t.lexeme.toList t.rule := by
  obtain ⟨u, hu, _, hi⟩ := emitted_running h
  obtain ⟨c, hc, rfl⟩ := step_token hi
  rw [hu.table, hu.settings] at hc
  obtain ⟨d, hd, hrule, hlexeme⟩ := Table.cut_ok hc
  refine ⟨u.ahead, ?_, ?_⟩
  · have hoffset : (u.placeToken c).range.start = Text.byteSize u.passed.reverse :=
      placed_offset hu.toPlaced
    rw [hoffset, placed_text hu.toPlaced]
    exact Text.dropBytes?_byteSize_append _ _
  · have hrule' : (u.placeToken c).rule = d.rule.name := hrule
    have hlexeme' : (u.placeToken c).lexeme.toList = d.lexeme := by
      rw [← hlexeme]
      exact String.toList_ofList
    rw [hrule', hlexeme']
    exact select?_munched hd

open Text in
/-- A truth value that a letter follows is no token: the name is. -/
theorem longer_name_munched :
    let text := ['t', 'r', 'u', 'e', 's']
    let settings : Settings := { emitWhitespace := true }
    ∃ t, Emits (ofText table settings text) (.token t) ∧ t.lexeme.toList = text ∧
      ∃ ahead, dropBytes? t.range.start text = some ahead ∧
        Munched settings ahead t.lexeme.toList t.rule := by
  intro text settings
  have hident : ident ∈ tokens := by decide
  have hword : text ∈ ident.words := ident_word (by decide +kernel) (by decide +kernel)
  have hne : ¬ text = [] := by decide
  rcases cut_cases settings text with ⟨hn, _⟩ | ⟨d, hd, ⟨f, hf, _⟩ | ⟨_, k, hk⟩⟩
  · exact absurd (select?_nothing hn hident ident_admitted (List.prefix_refl _) hword) hne
  · cases hf
  · have hend : ¬ (ofText table settings text).Ended := by
      rintro (h | h)
      · cases h
      · exact hne h
    have hstep : (ofText table settings text).step.1 =
        some (.token ((ofText table settings text).placeToken k)) := by
      rw [step_cut hk]
      rfl
    have he := emits_first hend hstep
    obtain ⟨ahead, hahead, hmunched⟩ := tokens_are_munched he
    refine ⟨_, he, ?_, ahead, hahead, hmunched⟩
    obtain rfl : text = ahead := Option.some.inj hahead
    have haccepted : Accepted settings text :=
      accepted_iff.mpr ⟨ident, hident, ident_admitted, hword⟩
    exact hmunched.start.eq_of_length_le (hmunched.longest text (List.prefix_refl _) haccepted)

end SparqlTokens.Sparql
