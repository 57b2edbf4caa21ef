import SparqlTokens.Proofs.Grammar.Ranks

/-! A table with its indexes: where the rule of each name is, which places the token rules have, and
the patterns that are tried together. They are filled one after the other, and all speak of the same
rules: what one of them says of a name or of an entry of the priority list, the others say too. -/
namespace SparqlTokens

open Expression (areWithinLimit)
open Pattern (Properties)

section Places

variable {α β : Type} {l : List α}

theorem idxOf?_iff [DecidableEq α] (hn : l.Nodup) {a : α} {i : ℕ} :
    l.idxOf? a = some i ↔ l[i]? = some a := by
  constructor
  · intro h
    obtain ⟨hi, ha, _⟩ := List.idxOf?_eq_some_iff.mp h
    rw [List.getElem?_eq_getElem hi, ha]
  · intro h
    obtain ⟨hi, rfl⟩ := List.getElem?_eq_some_iff.mp h
    exact idxOf?_getElem hn hi

theorem idxOf?_concat [DecidableEq α] {a : α} (ha : a ∉ l) :
    (fun b => (l ++ [a]).idxOf? b) = Function.update (fun b => l.idxOf? b) a (some l.length) := by
  funext b
  by_cases hb : b = a
  · subst hb
    have hnone : l.findIdx? (· == b) = none := List.idxOf?_eq_none_iff.mpr ha
    rw [Function.update_self, List.idxOf?, List.findIdx?_append, hnone]
    simp
  · have hother : ¬ a = b := fun h => hb h.symm
    rw [Function.update_of_ne hb, List.idxOf?, List.findIdx?_append]
    simp [hother]

theorem find?_idxOf? [DecidableEq β] (key : α → β) (l : List α) (b : β) :
    l.find? (fun a => key a = b) = ((l.map key).idxOf? b).bind fun i => l[i]? := by
  induction l with
  | nil => rfl
  | cons a l ih =>
    rw [List.map_cons, List.idxOf?_cons]
    by_cases ha : key a = b
    · simp [ha]
    · rw [List.find?_cons_of_neg (by simpa using ha), ih, if_neg (by simpa using ha),
        Option.bind_map]
      rfl

theorem filterMap_getElem? {f : α → Option β} (h : ∀ a ∈ l, (f a).isSome = true) (i : ℕ) :
    (l.filterMap f)[i]? = l[i]?.bind f := by
  induction l generalizing i with
  | nil => simp
  | cons a l ih =>
    obtain ⟨ha, hl⟩ := List.forall_mem_cons.mp h
    obtain ⟨b, hb⟩ := Option.isSome_iff_exists.mp ha
    rw [List.filterMap_cons_some hb]
    cases i with
    | zero => simp [hb]
    | succ i => simp [ih hl]

end Places

structure Indexed where
  /-- All rules, as declared. -/
  rules : List Rule
  /-- Where the rule of a name is. -/
  place? : String → Option ℕ
  /-- Where the token rules are, best rank first. -/
  tokenPlaces : List ℕ
  /-- The patterns of the token rules that are tried together. -/
  tokenSet : List Pattern

/-- What is found of a priority list: the ranks of all rules, and the places of those that have
one. -/
structure Ranking where
  ranks : List (Option ℕ)
  places : List ℕ

namespace Indexed

def rule? (x : Indexed) (name : String) : Option Rule := (x.place? name).bind fun i => x.rules[i]?

def ruleAt? (x : Indexed) (rank : ℕ) : Option Rule := x.tokenPlaces[rank]?.bind fun i => x.rules[i]?

def table (x : Indexed) : Table := ⟨x.rules, x.tokenPlaces.filterMap fun i => x.rules[i]?⟩

/-- The names are listed without repetition, by rank and then as declared; a name leads to the rule
that has it; and an entry of the priority list, the rank of a rule, the token rule of this rank, and
the pattern that is tried for it all belong together. -/
structure Consistent (names priority : List String) (x : Indexed) : Prop where
  listed : x.table.names = priority ++ names.filter (· ∉ priority)
  permuted : x.table.names.Perm names
  distinct : x.table.names.Nodup
  lookup : ∀ name, x.rule? name = x.table.rule? name
  found : ∀ name r, x.rule? name = some r ↔ r ∈ x.rules ∧ r.name = name
  ranked : ∀ r ∈ x.rules, ∀ i, r.rank? = some i ↔ priority[i]? = some r.name
  entries : ∀ i name, priority[i]? = some name → ∃ r ∈ x.rules, r.name = name ∧
    x.ruleAt? i = some r ∧ x.table.tokenRules[i]? = some r ∧ x.tokenSet[i]? = some r.leading
  sizes : x.tokenPlaces.length = priority.length ∧ x.tokenSet.length = priority.length

/-- A name takes its place; none may have two. -/
def locateStep (place? : String → Option ℕ) (entry : String × ℕ) :
    Except GrammarError (String → Option ℕ) :=
  if (place? entry.1).isSome then .error (.definedTwice entry.1)
  else .ok (Function.update place? entry.1 (some entry.2))

def locate (names : List String) : Except GrammarError (String → Option ℕ) :=
  names.zipIdx.foldlM locateStep fun _ => none

/-- The rule of a name takes a rank; none may have two. -/
def rankStep (place? : String → Option ℕ) (found : Ranking) (entry : String × ℕ) :
    Except GrammarError Ranking :=
  match place? entry.1 with
  | none => .error (.undefinedPriority entry.1)
  | some i =>
    if (found.ranks.getD i none).isSome then .error (.repeatedPriority entry.1)
    else .ok ⟨found.ranks.set i (some entry.2), found.places ++ [i]⟩

def rank (place? : String → Option ℕ) (count : ℕ) (priority : List String) :
    Except GrammarError Ranking :=
  priority.zipIdx.foldlM (rankStep place?) ⟨List.replicate count none, []⟩

/-- The expression of a match at the start of a text, for the token rules together. -/
def readTogether (properties : Properties) (r : Rule) : Except GrammarError Expression :=
  match r.expression? properties with
  | some e => .ok e
  | none => .error (.invalidPattern Table.tokenSet)

/-- The rules with their indexes, if the token rules together are within the limit. -/
def assemble (properties : Properties) (place? : String → Option ℕ) (tokenPlaces : List ℕ)
    (rules : List Rule) : Except GrammarError Indexed := do
  let together ← (tokenPlaces.filterMap fun i => rules[i]?).mapM (readTogether properties)
  if areWithinLimit together then
    return { rules, place?, tokenPlaces, tokenSet := together.map Expression.pattern }
  else throw (.invalidPattern Table.tokenSet)

def build (definitions : List Definition) (priority : List String)
    (properties : Properties := .standard) : Except GrammarError Indexed := do
  let place? ← locate (definitions.map (·.name))
  let texts ← definitions.mapM (Definition.expand definitions)
  let found ← rank place? definitions.length priority
  let rules ← ((definitions.zip texts).zip found.ranks).mapM fun ((d, text), rank?) =>
    Rule.compile properties d text rank?
  assemble properties place? found.places rules

/-! The names and their places -/

section Locating

variable {names before seen : List String}

theorem mem_seen_next (hseen : ∀ m, m ∈ seen ↔ m ∈ before) (n m : String) :
    m ∈ n :: seen ↔ m ∈ before ++ [n] := by
  rw [List.mem_cons, hseen, List.mem_append, List.mem_singleton, or_comm]

theorem locate_run (hseen : ∀ n, n ∈ seen ↔ n ∈ before) :
    (names.zipIdx before.length).foldlM locateStep (fun n => before.idxOf? n) =
      match Table.firstRepeated? seen names with
      | some n => .error (.definedTwice n)
      | none => .ok fun n => (before ++ names).idxOf? n := by
  induction names generalizing before seen with
  | nil => simp [Table.firstRepeated?, pure, Except.pure]
  | cons n names ih =>
    rw [List.zipIdx_cons, List.foldlM_cons, Table.firstRepeated?]
    by_cases hn : n ∈ before
    · rw [locateStep, if_pos (idxOf?_isSome.mpr hn), if_pos ((hseen n).mpr hn)]
      rfl
    · rw [locateStep, if_neg (idxOf?_isSome.not.mpr hn), if_neg ((hseen n).not.mpr hn),
        bind_ok rfl, ← idxOf?_concat hn]
      have hnext := ih (mem_seen_next hseen n)
      rwa [List.length_append, List.length_singleton, List.append_assoc,
        List.singleton_append] at hnext

theorem locate_eq (names : List String) : locate names =
    match Table.firstRepeated? [] names with
    | some n => .error (.definedTwice n)
    | none => .ok fun n => names.idxOf? n :=
  @locate_run names [] [] fun _ => Iff.rfl

end Locating

/-! The priority list and its ranks -/

section Ranking

variable {names done seen priority : List String} {n : String}

/-- The ranks and the places that a priority list gives to some names. -/
def rankingOf (names done : List String) : Ranking :=
  ⟨names.map fun n => done.idxOf? n, done.filterMap fun n => names.idxOf? n⟩

/-- What an entry of a priority list does behind the entries before it. -/
theorem rankStep_eq (hn : names.Nodup) :
    rankStep (fun n => names.idxOf? n) (rankingOf names done) (n, done.length) =
      if n ∉ names then .error (.undefinedPriority n)
      else if n ∈ done then .error (.repeatedPriority n)
      else .ok (rankingOf names (done ++ [n])) := by
  by_cases hmem : n ∈ names
  · obtain ⟨i, hi, rfl⟩ := List.getElem_of_mem hmem
    have hplace := idxOf?_getElem hn hi
    have hrank : (rankingOf names done).ranks.getD i none = done.idxOf? names[i] := by
      simp [rankingOf, hi]
    simp only [rankStep, hplace, hrank, idxOf?_isSome, hmem, not_true_eq_false, if_false]
    by_cases hdone : names[i] ∈ done
    · rw [if_pos hdone, if_pos hdone]
    · rw [if_neg hdone, if_neg hdone, rankingOf, rankingOf, idxOf?_concat hdone]
      congr 2
      · rw [hn.map_update, if_pos hmem, List.Nodup.idxOf_getElem hn]
      · simp [hplace]
  · have hnone : names.idxOf? n = none := List.idxOf?_eq_none_iff.mpr hmem
    simp only [rankStep, hnone, hmem, not_false_eq_true, if_true]

theorem rank_run (hn : names.Nodup) (hseen : ∀ n, n ∈ seen ↔ n ∈ done) :
    (priority.zipIdx done.length).foldlM (rankStep fun n => names.idxOf? n)
        (rankingOf names done) =
      match Table.priorityFault? names seen priority with
      | some e => .error e
      | none => .ok (rankingOf names (done ++ priority)) := by
  induction priority generalizing done seen with
  | nil => simp [Table.priorityFault?, pure, Except.pure]
  | cons n priority ih =>
    rw [List.zipIdx_cons, List.foldlM_cons, rankStep_eq hn, Table.priorityFault?]
    by_cases hmem : n ∉ names
    · rw [if_pos hmem, if_pos hmem]
      rfl
    · rw [if_neg hmem, if_neg hmem]
      by_cases hdone : n ∈ done
      · rw [if_pos hdone, if_pos ((hseen n).mpr hdone)]
        rfl
      · rw [if_neg hdone, if_neg ((hseen n).not.mpr hdone), bind_ok rfl]
        have hnext := ih (mem_seen_next hseen n)
        rwa [List.length_append, List.length_singleton, List.append_assoc,
          List.singleton_append] at hnext

theorem rank_eq (hn : names.Nodup) (priority : List String) :
    rank (fun n => names.idxOf? n) names.length priority =
      match Table.priorityFault? names [] priority with
      | some e => .error e
      | none => .ok (rankingOf names priority) := by
  have hstart : rankingOf names [] = ⟨List.replicate names.length none, []⟩ := by
    simp [rankingOf]
  rw [rank, ← hstart]
  exact @rank_run names [] [] priority hn fun _ => Iff.rfl

end Ranking

/-! The table and its indexes -/

section Built

variable {properties : Properties} {definitions : List Definition} {priority : List String}
  {t : Table}

/-- What the places of a priority list lead to among rules with some names. -/
theorem ranking_rules {rules : List Rule} {names : List String}
    (hnames : rules.map (·.name) = names) (priority : List String) :
    ((rankingOf names priority).places.filterMap fun i => rules[i]?) =
      priority.filterMap fun n => rules.find? (·.name = n) := by
  rw [rankingOf, List.filterMap_filterMap]
  congr 1
  funext n
  rw [find?_idxOf?, hnames]

theorem zip_ranks (ds : List Definition) (texts : List (List Char)) (f : Definition → Option ℕ) :
    (ds.zip texts).zip (ds.map f) = (ds.zip texts).map fun p => (p, f p.1) := by
  induction ds generalizing texts with
  | nil => rfl
  | cons d ds ih =>
    cases texts with
    | nil => rfl
    | cons text texts => simp [ih]

theorem tokens_declared {rules : List Rule} {r : Rule}
    (h : r ∈ priority.filterMap fun n => rules.find? (·.name = n)) : r ∈ rules := by
  obtain ⟨n, _, hfound⟩ := List.mem_filterMap.mp h
  exact List.mem_of_find?_eq_some hfound

theorem readTogether_all {rules : List Rule}
    (h : ∀ r ∈ rules, ∃ e, r.expression? properties = some e ∧ r.leading = e.pattern) :
    rules.mapM (readTogether properties) =
        .ok (rules.filterMap (Rule.expression? properties)) ∧
      (rules.filterMap (Rule.expression? properties)).map Expression.pattern =
        rules.map (·.leading) := by
  induction rules with
  | nil => exact ⟨rfl, rfl⟩
  | cons r rules ih =>
    obtain ⟨⟨e, he, hleading⟩, hrules⟩ := List.forall_mem_cons.mp h
    obtain ⟨hread, hpatterns⟩ := ih hrules
    have hr : readTogether properties r = .ok e := by rw [readTogether, he]
    rw [List.filterMap_cons_some he, List.map_cons, List.map_cons, List.mapM_cons, hr, hread,
      hpatterns, hleading]
    exact ⟨rfl, rfl⟩

/-- The indexes of a table for some names and a priority list. -/
def ofTable (names priority : List String) (t : Table) : Indexed :=
  ⟨t.rules, fun n => names.idxOf? n, (rankingOf names priority).places,
    t.tokenRules.map (·.leading)⟩

theorem compile_expression {d : Definition} {text : List Char} {rank? : Option ℕ} {r : Rule}
    (h : Rule.compile properties d text rank? = .ok r) :
    ∃ e, r.expression? properties = some e ∧ r.leading = e.pattern := by
  unfold Rule.compile at h
  split at h
  · next whole leading _ hleading =>
    cases h
    refine ⟨leading, ?_, rfl⟩
    rw [Rule.expression?, String.toList_ofList, hleading]
    rfl
  · cases h

theorem declare_expression {rules : List Rule}
    (h : definitions.mapM (Table.declare properties definitions priority) = .ok rules) :
    ∀ r ∈ rules, ∃ e, r.expression? properties = some e ∧ r.leading = e.pattern := by
  intro r hr
  obtain ⟨d, _, hd⟩ := exists_related (mapM_ok h) hr
  obtain ⟨text, _, hcompile⟩ := ok_of_bind hd
  exact compile_expression hcompile

theorem compile_ranked {texts : List (List Char)}
    (htexts : definitions.mapM (Definition.expand definitions) = .ok texts)
    (priority : List String) :
    (((definitions.zip texts).zip (rankingOf (definitions.map (·.name)) priority).ranks).mapM
        fun ((d, text), rank?) => Rule.compile properties d text rank?) =
      definitions.mapM (Table.declare properties definitions priority) := by
  have hranks : (rankingOf (definitions.map (·.name)) priority).ranks =
      definitions.map fun d => priority.idxOf? d.name := by
    rw [rankingOf, List.map_map]
    rfl
  rw [← Table.declare_all htexts, hranks, zip_ranks, List.mapM_map]
  rfl

theorem assemble_eq {rules : List Rule}
    (hrules : definitions.mapM (Table.declare properties definitions priority) = .ok rules) :
    assemble properties (fun n => (definitions.map (·.name)).idxOf? n)
        (rankingOf (definitions.map (·.name)) priority).places rules =
      (Table.assemble properties priority rules).map (ofTable (definitions.map (·.name)) priority) := by
  have hnames := Table.declared_names (mapM_ok_iff.mp hrules)
  have htokens : ∀ r ∈ priority.filterMap fun n => rules.find? (·.name = n),
      ∃ e, r.expression? properties = some e ∧ r.leading = e.pattern :=
    fun r hr => declare_expression hrules r (tokens_declared hr)
  obtain ⟨hread, hpatterns⟩ := readTogether_all htokens
  simp only [assemble, Table.assemble, ranking_rules hnames, bind_ok hread, hpatterns]
  split <;> rfl

/-- With its indexes, the same table is built, or the same error found. -/
theorem build_eq (definitions : List Definition) (priority : List String)
    (properties : Properties) : build definitions priority properties =
      (Table.build definitions priority properties).map
        (ofTable (definitions.map (·.name)) priority) := by
  cases hfirst : Table.firstRepeated? [] (definitions.map (·.name)) with
  | some n =>
    simp only [build, Table.build, locate_eq, hfirst]
    rfl
  | none =>
    have hn := Table.firstRepeated?_nodup.mp hfirst
    cases htexts : definitions.mapM (Definition.expand definitions) with
    | error e =>
      rw [Table.build_unresolved hn htexts]
      simp only [build, locate_eq, hfirst, bind_ok rfl, htexts]
      rfl
    | ok texts =>
      have hrank := rank_eq hn priority
      rw [List.length_map] at hrank
      rw [Table.build_phases hn htexts]
      simp only [build, locate_eq, hfirst, bind_ok rfl, htexts, hrank]
      cases hfault : Table.priorityFault? (definitions.map (·.name)) [] priority with
      | some e => rfl
      | none =>
        simp only [bind_ok rfl]
        rw [compile_ranked htexts]
        cases hrules : definitions.mapM (Table.declare properties definitions priority) with
        | error e => rfl
        | ok rules => exact assemble_eq hrules

section Accepted

variable (h : Table.build definitions priority properties = .ok t)
include h

theorem places_found {n : String} (hn : n ∈ priority) :
    ((definitions.map (·.name)).idxOf? n).isSome = true := by
  rw [idxOf?_isSome, ← Table.build_names h]
  exact (Table.build_priority h).2 n hn

theorem ofTable_table : (ofTable (definitions.map (·.name)) priority t).table = t := by
  obtain ⟨_, _, _, htokens⟩ := Table.build_ok h
  rw [table, ofTable, ranking_rules (Table.build_names h), ← htokens]

theorem ofTable_rule? (name : String) :
    (ofTable (definitions.map (·.name)) priority t).rule? name = t.rule? name := by
  rw [rule?, ofTable, Table.rule?, find?_idxOf?, Table.build_names h]

theorem tokenRules_getElem? (i : ℕ) : t.tokenRules[i]? = priority[i]?.bind t.rule? := by
  obtain ⟨_, _, _, htokens⟩ := Table.build_ok h
  rw [htokens]
  refine filterMap_getElem? (fun n hn => ?_) i
  obtain ⟨r, hr⟩ := List.mem_map.mp ((Table.build_priority h).2 n hn)
  exact Option.isSome_iff_exists.mpr ⟨r, (Table.rule?_iff h).mpr hr⟩

theorem ofTable_ruleAt? (i : ℕ) :
    (ofTable (definitions.map (·.name)) priority t).ruleAt? i = t.tokenRules[i]? := by
  rw [tokenRules_getElem? h, ruleAt?, ofTable, rankingOf]
  dsimp only
  rw [filterMap_getElem? (fun n hn => places_found h hn), Option.bind_assoc]
  congr 1
  funext n
  exact ofTable_rule? h n

/-- The names are listed by rank first, and then as they are declared. -/
theorem build_listing : t.names =
    priority ++ (definitions.map (·.name)).filter (· ∉ priority) := by
  have hothers : (t.rules.filter (·.rank?.isNone)).map (·.name) =
      (definitions.map (·.name)).filter (· ∉ priority) := by
    rw [← Table.build_names h, List.filter_map]
    congr 1
    apply List.filter_congr
    intro r hr
    rw [Table.build_ranks h hr, Bool.eq_iff_iff, Option.isNone_iff_eq_none,
      List.idxOf?_eq_none_iff]
    simp
  rw [Table.names, Table.tokenRules_names h, hothers]

theorem listing_perm : t.names.Perm (definitions.map (·.name)) := by
  have hn := Table.build_nodup h
  obtain ⟨hdistinct, hdefined⟩ := Table.build_priority h
  rw [Table.build_names h] at hdefined
  have hranked : priority.Perm ((definitions.map (·.name)).filter (· ∈ priority)) := by
    refine (List.perm_ext_iff_of_nodup hdistinct (hn.filter _)).mpr fun n => ?_
    rw [List.mem_filter, decide_eq_true_eq]
    exact ⟨fun hmem => ⟨hdefined n hmem, hmem⟩, fun hmem => hmem.2⟩
  have hparts := List.filter_append_perm (fun n => decide (n ∈ priority))
    (definitions.map (·.name))
  rw [build_listing h]
  simp only [← decide_not] at hparts
  exact (hranked.append_right _).trans hparts

/-- What is kept of a table that could be built is consistent. -/
theorem ofTable_consistent : Consistent (definitions.map (·.name)) priority
    (ofTable (definitions.map (·.name)) priority t) := by
  have htable := ofTable_table h
  obtain ⟨hdistinct, hdefined⟩ := Table.build_priority h
  constructor
  · rw [htable]
    exact build_listing h
  · rw [htable]
    exact listing_perm h
  · rw [htable]
    exact (listing_perm h).nodup_iff.mpr (Table.build_nodup h)
  · intro name
    rw [ofTable_rule? h, htable]
  · intro name r
    rw [ofTable_rule? h]
    exact Table.rule?_iff h
  · intro r hr i
    rw [Table.build_ranks h hr]
    exact idxOf?_iff hdistinct
  · intro i name hi
    obtain ⟨r, hr, hname⟩ := List.mem_map.mp (hdefined name (List.mem_of_getElem? hi))
    have htoken : t.tokenRules[i]? = some r := by
      rw [tokenRules_getElem? h, hi]
      exact (Table.rule?_iff h).mpr ⟨hr, hname⟩
    refine ⟨r, hr, hname, (ofTable_ruleAt? h i).trans htoken, htable.symm ▸ htoken, ?_⟩
    rw [ofTable, List.getElem?_map, htoken]
    rfl
  · have hsize : t.tokenRules.length = priority.length := by
      rw [← Table.tokenRules_names h, List.length_map]
    refine ⟨?_, by rw [ofTable, List.length_map, hsize]⟩
    exact List.filterMap_length_eq_length.mpr fun n hn => places_found h hn

end Accepted

end Built

end Indexed

section Malformed

variable {properties : Properties} {definitions : List Definition} {priority : List String}

theorem Table.priorityFault?_malformed {defined seen ns : List String} {e : GrammarError}
    (h : priorityFault? defined seen ns = some e) : e.isMalformed = true := by
  induction ns generalizing seen with
  | nil => cases h
  | cons n ns ih =>
    rw [priorityFault?] at h
    split_ifs at h
    · cases h
      rfl
    · exact ih h
    · cases h
      rfl

/-- A fault of the names is found before any pattern is compiled. -/
theorem Table.build_malformed (h : ¬ (definitions.map (·.name)).Nodup ∨ ¬ priority.Nodup ∨
    ∃ n ∈ priority, n ∉ definitions.map (·.name)) :
    ∃ e, build definitions priority properties = .error e ∧ e.isMalformed = true := by
  by_cases hn : (definitions.map (·.name)).Nodup
  · cases htexts : definitions.mapM (Definition.expand definitions) with
    | error e =>
      exact ⟨e, build_unresolved hn htexts priority properties,
        Definition.faulty_malformed (Definition.expand_error htexts)⟩
    | ok texts =>
      rw [build_phases hn htexts]
      cases hfault : priorityFault? (definitions.map (·.name)) [] priority with
      | some e => exact ⟨e, rfl, priorityFault?_malformed hfault⟩
      | none =>
        obtain ⟨hdefined, hdistinct, _⟩ := priorityFault?_none_iff.mp hfault
        rcases h with h | h | ⟨n, hmem, h⟩
        · exact absurd hn h
        · exact absurd hdistinct h
        · exact absurd (hdefined n hmem) h
  · obtain ⟨n, hrepeated⟩ := build_repeated hn priority properties
    exact ⟨_, hrepeated, rfl⟩

end Malformed

open Indexed in
/-- Listing, lookup and ranks are consistent. With its indexes the same table is built, or the same
error found; the indexes of every table that is built are consistent; and where a name is defined
twice, or an entry of the priority list is repeated or names no rule, no table is built, but an error
in the definitions is found. -/
theorem indexes_agree (definitions : List Definition) (priority : List String)
    (properties : Properties) :
    (build definitions priority properties).map table =
      Table.build definitions priority properties ∧
    (∀ x, build definitions priority properties = .ok x →
      x.Consistent (definitions.map (·.name)) priority) ∧
    (¬ (definitions.map (·.name)).Nodup ∨ ¬ priority.Nodup ∨
        (∃ n ∈ priority, n ∉ definitions.map (·.name)) →
      ∃ e, Table.build definitions priority properties = .error e ∧ e.isMalformed = true) := by
  refine ⟨?_, ?_, Table.build_malformed⟩
  · rw [build_eq]
    cases ht : Table.build definitions priority properties with
    | error e => rfl
    | ok t => exact congrArg Except.ok (ofTable_table ht)
  · intro x hx
    rw [build_eq] at hx
    cases ht : Table.build definitions priority properties with
    | error e =>
      rw [ht] at hx
      cases hx
    | ok t =>
      rw [ht] at hx
      cases hx
      exact ofTable_consistent ht

open Indexed in
/-- A table whose last rule is ranked first; and an entry that is repeated, although its pattern
cannot be read either. -/
theorem last_rule_ranked_first :
    let definitions : List Definition := [⟨"A", "a"⟩, ⟨"B", "\x7bA\x7db"⟩, ⟨"C", "c"⟩]
    (∃ x r, build definitions ["C", "A"] = .ok x ∧ x.table.names = ["C", "A", "B"] ∧
      r ∈ x.rules ∧ r.name = "A" ∧ r.rank? = some 1 ∧ x.ruleAt? 1 = some r ∧
      x.tokenSet[1]? = some r.leading) ∧
    ¬ ["A", "A"].Nodup ∧ ∃ e, Table.build [⟨"A", "("⟩] ["A", "A"] = .error e ∧
      e.isMalformed = true := by
  intro definitions
  have hrepeated : ¬ ["A", "A"].Nodup := by decide
  have hbuilt : (Table.build definitions ["C", "A"]).toOption.isSome = true := by decide +kernel
  obtain ⟨htable, hconsistent, _⟩ := indexes_agree definitions ["C", "A"] .standard
  constructor
  · cases hx : build definitions ["C", "A"] with
    | error e =>
      rw [← htable, hx] at hbuilt
      cases hbuilt
    | ok x =>
      have hagree := hconsistent x hx
      obtain ⟨r, hr, hname, hat, _, hset⟩ := hagree.entries 1 "A" rfl
      have hrank := (hagree.ranked r hr 1).mpr (congrArg some hname.symm)
      exact ⟨x, r, rfl, hagree.listed.trans (by decide), hr, hname, hrank, hat, hset⟩
  · obtain ⟨_, _, hmalformed⟩ := indexes_agree [⟨"A", "("⟩] ["A", "A"] .standard
    exact ⟨hrepeated, hmalformed (Or.inr (Or.inl hrepeated))⟩

end SparqlTokens
