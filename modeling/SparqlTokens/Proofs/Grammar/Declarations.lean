import SparqlTokens.Proofs.Grammar.Resolver
import SparqlTokens.Proofs.Lexing.Runs

/-! What definitions make of a table, in whatever order they are declared. The pattern of each rule
is its template with every reference replaced by the pattern of the rule it names, as a group. Which
definitions stand before others decides only which of several faults of one kind is reported. -/
namespace SparqlTokens

open Pattern (Properties)
open Template (Piece)
open Definition (expand expandWith expandPiece expandPieces Expands Substituted Faulty)

section Order

variable {α β ε : Type} {f : α → Except ε β} {as bs : List α}

theorem mapM_perm (h : as.Perm bs) {xs : List β} (hx : as.mapM f = .ok xs) :
    ∃ ys, bs.mapM f = .ok ys ∧ xs.Perm ys := by
  obtain ⟨ys, hys, hperm⟩ := List.perm_comp_forall₂ h.symm (mapM_ok_iff.mp hx)
  exact ⟨ys, mapM_ok_iff.mpr hys, hperm.symm⟩

theorem mapM_perm_error (h : as.Perm bs) {e : ε} (he : as.mapM f = .error e) :
    ∃ e', bs.mapM f = .error e' := by
  cases hb : bs.mapM f with
  | error e' => exact ⟨e', rfl⟩
  | ok ys =>
    obtain ⟨xs, hx, _⟩ := mapM_perm h.symm hb
    rw [he] at hx
    cases hx

end Order

/-- Whether an error is about the definitions and the priority list, and not about a pattern. -/
def GrammarError.isMalformed : GrammarError → Bool
  | invalidPattern _ => false
  | _ => true

namespace Definition

variable {definitions others : List Definition}

theorem faulty_malformed {e : GrammarError} (h : Faulty definitions e) : e.isMalformed = true := by
  cases e with
  | invalidPattern => exact h.elim
  | definedTwice | undefinedReference | cycle | undefinedPriority | repeatedPriority => rfl

/-- Expanding asks of the other definitions only which one has a name. -/
theorem expandWith_congr (h : ∀ name, find? definitions name = find? others name) (depth : ℕ)
    (path : List String) (d : Definition) :
    expandWith definitions depth path d = expandWith others depth path d := by
  induction depth generalizing path d with
  | zero => rfl
  | succ depth ih =>
    have hpiece : expandPiece definitions depth (path ++ [d.name]) d.name =
        expandPiece others depth (path ++ [d.name]) d.name := by
      funext p
      cases p with
      | char c => rfl
      | reference name => simp only [expandPiece, h, ih]
    by_cases hrepeated : d.name ∈ path
    · rw [expandWith_repeated hrepeated, expandWith_repeated hrepeated]
    · rw [expandWith_fresh hrepeated, expandWith_fresh hrepeated, expandPieces, expandPieces,
        hpiece]

theorem expand_perm (h : definitions.Perm others) (hn : (definitions.map (·.name)).Nodup) :
    expand definitions = expand others := by
  funext d
  rw [expand, expand, h.length_eq]
  exact expandWith_congr (find?_perm h hn) _ _ _

end Definition

namespace Table

variable {properties : Properties} {definitions others : List Definition} {priority : List String}

/-! The phases of building a table -/

def declare (properties : Properties) (definitions : List Definition) (priority : List String)
    (d : Definition) : Except GrammarError Rule := do
  Rule.compile properties d (← expand definitions d) (priority.idxOf? d.name)

/-- The table of some rules, if its token rules together are within the limit. -/
def assemble (properties : Properties) (priority : List String) (rules : List Rule) :
    Except GrammarError Table :=
  let tokenRules := priority.filterMap fun n => rules.find? (·.name = n)
  if Expression.areWithinLimit (tokenRules.filterMap (Rule.expression? properties)) then
    .ok { rules, tokenRules }
  else .error (.invalidPattern tokenSet)

theorem build_repeated (hn : ¬ (definitions.map (·.name)).Nodup) (priority : List String)
    (properties : Properties) : ∃ n, build definitions priority properties = .error (.definedTwice n) := by
  cases hfirst : firstRepeated? [] (definitions.map (·.name)) with
  | none => exact absurd (firstRepeated?_nodup.mp hfirst) hn
  | some n =>
    refine ⟨n, ?_⟩
    simp only [build, hfirst]
    rfl

theorem declare_all {ds : List Definition} {texts : List (List Char)}
    (h : ds.mapM (expand definitions) = .ok texts) (priority : List String) :
    ((ds.zip texts).mapM fun (d, text) => Rule.compile properties d text (priority.idxOf? d.name)) =
      ds.mapM (declare properties definitions priority) := by
  rw [mapM_ok_iff] at h
  induction h with
  | nil => rfl
  | cons htext _ ih =>
    rw [List.zip_cons_cons, List.mapM_cons, List.mapM_cons, ih, declare, bind_ok htext]

/-- Definitions with different names are expanded, then the priority list is checked, then the
patterns are compiled. -/
theorem build_phases (hn : (definitions.map (·.name)).Nodup) {texts : List (List Char)}
    (htexts : definitions.mapM (expand definitions) = .ok texts) (priority : List String) :
    build definitions priority properties =
      match priorityFault? (definitions.map (·.name)) [] priority with
      | some e => .error e
      | none => definitions.mapM (declare properties definitions priority) >>=
          assemble properties priority := by
  have hfirst := firstRepeated?_nodup.mpr hn
  rw [← declare_all htexts]
  simp only [build, hfirst, bind_ok rfl, htexts]
  cases priorityFault? (definitions.map (·.name)) [] priority with
  | some e => rfl
  | none =>
    cases (definitions.zip texts).mapM fun (d, text) =>
        Rule.compile properties d text (priority.idxOf? d.name) with
    | error e => rfl
    | ok rules =>
      simp only [bind_ok rfl, assemble]
      split <;> rfl

theorem compile_error {d : Definition} {text : List Char} {rank? : Option ℕ} {e : GrammarError}
    (h : Rule.compile properties d text rank? = .error e) : e.isMalformed = false := by
  unfold Rule.compile at h
  split at h
  · cases h
  · cases h
    rfl

theorem declare_ok {d : Definition} {r : Rule}
    (h : declare properties definitions priority d = .ok r) :
    r.name = d.name ∧ r.template = d.template ∧
      expand definitions d = .ok r.expanded.toList := by
  obtain ⟨text, htext, hcompile⟩ := ok_of_bind h
  obtain ⟨hname, htemplate, hexpanded, _⟩ := compile_ok hcompile
  exact ⟨hname, htemplate, hexpanded.symm ▸ htext⟩

theorem declare_error {texts : List (List Char)}
    (htexts : definitions.mapM (expand definitions) = .ok texts) {e : GrammarError}
    (h : definitions.mapM (declare properties definitions priority) = .error e) :
    e.isMalformed = false := by
  obtain ⟨d, hd, hfault⟩ := mapM_error h
  obtain ⟨text, _, htext⟩ := exists_related (mapM_ok_iff.mp htexts) hd
  rw [declare, bind_ok htext] at hfault
  exact compile_error hfault

section Declared

variable {rules : List Rule}
  (h : List.Forall₂ (fun d r => declare properties definitions priority d = .ok r) others rules)
include h

theorem declared_definitions : rules.map (fun r => ⟨r.name, r.template⟩) = others := by
  induction h with
  | nil => rfl
  | cons hr _ ih =>
    obtain ⟨hname, htemplate, _⟩ := declare_ok hr
    rw [List.map_cons, ih, hname, htemplate]

theorem declared_names : rules.map (·.name) = others.map (·.name) := by
  rw [← declared_definitions h, List.map_map]
  rfl

theorem declared_texts :
    others.mapM (expand definitions) = .ok (rules.map fun r => r.expanded.toList) := by
  rw [mapM_ok_iff, List.forall₂_map_right_iff]
  exact h.imp fun d r hr => (declare_ok hr).2.2

end Declared

/-! Plain substitution -/

/-- The text of pieces with each reference replaced by the pattern of the rule it names, as a group,
if all references name rules of the table. -/
def substitute? (t : Table) : List Piece → Option (List Char)
  | [] => some []
  | .char c :: pieces => do return c :: (← t.substitute? pieces)
  | .reference name :: pieces => do
    let r ← t.rule? (String.ofList name)
    return Definition.grouped r.expanded.toList ++ (← t.substitute? pieces)

/-- The rules of a table are what definitions declare, and their patterns what the search for their
texts finds and what plain substitution makes of their templates: these, with the patterns of other
rules in the place of references. -/
structure Expanded (definitions : List Definition) (t : Table) : Prop where
  declared : t.rules.map (fun r => ⟨r.name, r.template⟩) = definitions
  found : (Resolver.run definitions).run = some (.ok (t.rules.map fun r => r.expanded.toList))
  plain : ∀ r ∈ t.rules,
    Substituted definitions (Template.split r.template.toList) r.expanded.toList
  substituted : ∀ r ∈ t.rules,
    t.substitute? (Template.split r.template.toList) = some r.expanded.toList

theorem substitute?_substituted {t : Table} {pieces : List Piece} {text : List Char}
    (h : Substituted definitions pieces text)
    (hrules : ∀ name e inner, Definition.find? definitions name = some e →
      Expands definitions e inner → ∃ r, t.rule? name = some r ∧ r.expanded.toList = inner) :
    t.substitute? pieces = some text := by
  induction h with
  | nil => rfl
  | char _ ih =>
    rw [substitute?, ih]
    rfl
  | reference hfound hinner _ _ ih =>
    obtain ⟨r, hr, hexpanded⟩ := hrules _ _ _ hfound hinner
    rw [substitute?, hr, ih, ← hexpanded]
    rfl

theorem build_nodup {t : Table} (h : build definitions priority properties = .ok t) :
    (definitions.map (·.name)).Nodup := by
  by_contra hn
  obtain ⟨n, hrepeated⟩ := build_repeated hn priority properties
  rw [h] at hrepeated
  cases hrepeated

theorem build_declares {t : Table} (h : build definitions priority properties = .ok t) :
    List.Forall₂ (fun d r => declare properties definitions priority d = .ok r) definitions t.rules := by
  obtain ⟨texts, htexts, hrules, _⟩ := build_ok h
  rw [declare_all htexts] at hrules
  exact mapM_ok_iff.mp hrules

theorem build_expanded {t : Table} (h : build definitions priority properties = .ok t) :
    t.Expanded definitions := by
  have hn := build_nodup h
  have hdeclares := build_declares h
  have hnames : (t.rules.map (·.name)).Nodup := declared_names hdeclares ▸ hn
  have hplain : ∀ r ∈ t.rules,
      Substituted definitions (Template.split r.template.toList) r.expanded.toList := by
    intro r hr
    obtain ⟨d, hd, hdeclare⟩ := exists_related hdeclares.flip hr
    obtain ⟨_, htemplate, hexpand⟩ := declare_ok hdeclare
    rw [htemplate]
    exact Definition.expand_ok hd hexpand
  refine ⟨declared_definitions hdeclares, ?_, hplain, ?_⟩
  · rw [Resolver.run_expands hn, declared_texts hdeclares]
  · intro r hr
    refine substitute?_substituted (hplain r hr) ?_
    intro name e inner hfound hinner
    obtain ⟨he, hname⟩ := Definition.find?_some hfound
    obtain ⟨u, hu, hdeclare⟩ := exists_related hdeclares he
    obtain ⟨hname', _, hexpand⟩ := declare_ok hdeclare
    refine ⟨u, (find?_iff hnames).mpr ⟨hu, hname'.trans hname⟩, ?_⟩
    exact Definition.substituted_unique (Definition.expand_ok he hexpand) hinner

/-! Other orders -/

theorem priorityFault?_congr {defined defined' : List String}
    (h : ∀ n, n ∈ defined ↔ n ∈ defined') (seen ns : List String) :
    priorityFault? defined seen ns = priorityFault? defined' seen ns := by
  induction ns generalizing seen with
  | nil => rfl
  | cons n ns ih => simp only [priorityFault?, h, ih]

/-- Two tables have the same rules under all names, and read every text the same; two errors are of
the same kind. -/
def Alike : Except GrammarError Table → Except GrammarError Table → Prop
  | .ok t, .ok u => (∀ name, t.rule? name = u.rule? name) ∧ t.rules.Perm u.rules ∧
      ∀ settings text, t.items settings text = u.items settings text
  | .error e, .error f => e.isMalformed = f.isMalformed
  | _, _ => False

section Same

variable {t u : Table} (htokens : t.tokenRules = u.tokenRules)
  (hrules : ∀ name, t.rule? name = u.rule? name)
include htokens hrules

theorem cut_same : t.cut = u.cut := by
  have hcontinues : t.continuesName = u.continuesName := by
    funext rest
    rw [continuesName, continuesName, hrules]
  have hcandidate : t.candidate? = u.candidate? := by
    funext rest r
    rw [candidate?, candidate?, hcontinues]
  funext settings rest
  rw [cut, cut, select?, select?, candidates, candidates, htokens, hcandidate]

end Same

theorem assemble_perm {rules rules' : List Rule} (hn : (rules.map (·.name)).Nodup)
    (h : rules.Perm rules') :
    Alike (assemble properties priority rules) (assemble properties priority rules') := by
  have hfind := find?_perm h hn
  have htokens : (priority.filterMap fun n => rules.find? (·.name = n)) =
      priority.filterMap fun n => rules'.find? (·.name = n) := by simp only [hfind]
  unfold assemble
  simp only [htokens]
  split
  · exact ⟨hfind, h, items_cut (cut_same rfl hfind)⟩
  · rfl

/-- The order of definitions changes neither what is built of them nor the kind of an error. -/
theorem build_perm (h : definitions.Perm others) :
    Alike (build definitions priority properties) (build others priority properties) := by
  have hnames := h.map (·.name)
  by_cases hn : (definitions.map (·.name)).Nodup
  · have hn' : (others.map (·.name)).Nodup := hnames.nodup_iff.mp hn
    have hexpand := Definition.expand_perm h hn
    cases htexts : definitions.mapM (expand definitions) with
    | error e =>
      obtain ⟨e', htexts'⟩ := mapM_perm_error h htexts
      rw [hexpand] at htexts'
      rw [build_unresolved hn htexts, build_unresolved hn' htexts', Alike,
        Definition.faulty_malformed (Definition.expand_error htexts),
        Definition.faulty_malformed (Definition.expand_error htexts')]
    | ok texts =>
      obtain ⟨texts', htexts', _⟩ := mapM_perm h htexts
      rw [hexpand] at htexts'
      have hdeclare : declare properties definitions priority = declare properties others priority := by
        funext d
        rw [declare, declare, hexpand]
      rw [build_phases hn htexts, build_phases hn' htexts',
        priorityFault?_congr fun n => hnames.mem_iff]
      cases hfault : priorityFault? (others.map (·.name)) [] priority with
      | some e => rfl
      | none =>
        cases hrules : definitions.mapM (declare properties definitions priority) with
        | error e =>
          obtain ⟨e', hrules'⟩ := mapM_perm_error h hrules
          rw [hdeclare] at hrules'
          rw [hrules']
          exact (declare_error htexts hrules).trans (declare_error htexts' hrules').symm
        | ok rules =>
          obtain ⟨rules', hrules', hperm⟩ := mapM_perm h hrules
          have hdistinct := declared_names (mapM_ok_iff.mp hrules) ▸ hn
          rw [hdeclare] at hrules'
          rw [hrules', bind_ok rfl, bind_ok rfl]
          exact assemble_perm hdistinct hperm
  · have hn' : ¬ (others.map (·.name)).Nodup := fun h' => hn (hnames.nodup_iff.mpr h')
    obtain ⟨m, hfirst⟩ := build_repeated hn priority properties
    obtain ⟨n, hfirst'⟩ := build_repeated hn' priority properties
    rw [hfirst, hfirst']
    rfl

end Table

open Table in
/-- Expanding each rule once is plain substitution: the pattern of a rule is its template with every
reference replaced by the pattern of the rule it names, as a group. The order of the definitions
does not matter for it, nor for anything a table of them reads, nor for the kind of error if there
is no table. -/
theorem patterns_are_substituted (definitions : List Definition) (priority : List String)
    (properties : Properties) :
    (∀ t, build definitions priority properties = .ok t → t.Expanded definitions) ∧
    ∀ others, definitions.Perm others →
      Alike (build definitions priority properties) (build others priority properties) :=
  ⟨fun _ => build_expanded, fun _ => build_perm⟩

open Table in
/-- A rule declared before the one it refers to, and behind it. -/
theorem declared_either_way :
    let definitions : List Definition := [⟨"B", "\x7bA\x7dc"⟩, ⟨"A", "a|b"⟩]
    ∃ t, build definitions ["B"] = .ok t ∧ t.Expanded definitions ∧
      Alike (.ok t) (build definitions.reverse ["B"]) := by
  intro definitions
  obtain ⟨hexpanded, hperm⟩ := patterns_are_substituted definitions ["B"] .standard
  have hbuilt : (build definitions ["B"]).toOption.isSome = true := by decide +kernel
  cases ht : build definitions ["B"] with
  | error e =>
    rw [ht] at hbuilt
    cases hbuilt
  | ok t => exact ⟨t, rfl, hexpanded t ht, ht ▸ hperm _ definitions.reverse_perm.symm⟩

end SparqlTokens
