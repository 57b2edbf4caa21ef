import SparqlTokens.Proofs.Grammar.Written
import SparqlTokens.Proofs.Sparql.Terminals

/-! The table of the grammar: it is built, and its rules follow the expressions of the terminals. -/
namespace SparqlTokens.Sparql

open Written

def written : {ws : List Written // definitions = ws.map definition} := by
  apply Subtype.mk
  simp only [definitions, terminals, values, categories, List.cons_append, List.nil_append]
  repeat' first
    | apply spell_cons
    | apply spell_append
    | exact spell_nil
    | rfl

namespace Terminal

def written (T : Terminal) : Written := Sparql.written.1.getD T.ctorIdx ⟨[], []⟩

def definition (T : Terminal) : Definition := T.written.definition

theorem written_all : Sparql.written.1 = all.map written := rfl

theorem definitions_all : definitions = all.map definition := by
  rw [Sparql.written.2, written_all, List.map_map]
  rfl

theorem definition_name (T : Terminal) : T.definition.name = T.name := by
  cases T <;> rfl

theorem priority_tokens : priority = tokens.map name := rfl

theorem mem_all (T : Terminal) : T ∈ all := by
  cases T <;> decide

theorem nodup_all : (all.map fun T => T.written.name).Nodup := by
  decide

theorem name_injective : Function.Injective name := by
  intro S T h
  rw [← definition_name, ← definition_name] at h
  exact List.inj_on_of_nodup_map nodup_all (mem_all S) (mem_all T) (ofList_inj.mp h)

theorem nodup_names : (all.map name).Nodup :=
  (List.Nodup.of_map _ nodup_all).map name_injective

/-- Whether the form of a terminal is found to be what its text describes, with expressions of its
matches as they are built. -/
def isDescribed (T : Terminal) : Bool :=
  describes .standard Sparql.written.1 T.written T.form && T.form.isFinal

-- in parts, since the texts are long

theorem terminals_described : (all.take 35).all isDescribed = true := by
  decide +kernel

theorem values_described : ((all.drop 35).take 8).all isDescribed = true := by
  decide +kernel

theorem literals_described : ((all.drop 43).take 2).all isDescribed = true := by
  decide +kernel

theorem others_described : (all.drop 45).all isDescribed = true := by
  decide +kernel

theorem all_described (T : Terminal) : T.isDescribed = true := by
  have hparts : all = all.take 35 ++ ((all.drop 35).take 8 ++
      ((all.drop 43).take 2 ++ all.drop 45)) := rfl
  have hT := mem_all T
  rw [hparts] at hT
  rcases List.mem_append.mp hT with h | h
  · exact List.all_eq_true.mp terminals_described T h
  rcases List.mem_append.mp h with h | h
  · exact List.all_eq_true.mp values_described T h
  rcases List.mem_append.mp h with h | h
  · exact List.all_eq_true.mp literals_described T h
  · exact List.all_eq_true.mp others_described T h

theorem tokens_within : Expression.areWithinLimit (tokens.map fun T => T.form.led) = true := by
  decide

theorem definition_describes (T : Terminal) : T.definition.Describes .standard definitions T.form := by
  rw [Sparql.written.2]
  obtain ⟨hform, hfinal⟩ := Bool.and_eq_true_iff.mp (all_described T)
  exact describes_definition hform hfinal

def part (T : Terminal) : Definition × Expression := (T.definition, T.form)

theorem parts_definitions : (all.map part).map Prod.fst = definitions := by
  rw [definitions_all, List.map_map]
  rfl

theorem parts_names (l : List Terminal) : (l.map part).map (·.1.name) = l.map name := by
  rw [List.map_map]
  exact List.map_congr_left fun T _ => definition_name T

/-- With any terminals for its token rules, the grammar makes a table of rules that follow the forms
of the terminals. -/
theorem exists_table {chosen : List Terminal} (hchosen : chosen.Nodup)
    (hlimit : Expression.areWithinLimit (chosen.map fun T => T.form.led) = true) :
    ∃ t, Table.build definitions (chosen.map name) = .ok t ∧
      List.Forall₂ (fun r T => r.Follows .standard (definition T) (form T)) t.rules all ∧
      t.tokenRules = (chosen.map name).filterMap t.rule? := by
  have hn : ((all.map part).map (·.1.name)).Nodup := by
    rw [parts_names]
    exact nodup_names
  have hd : ∀ p ∈ all.map part, p.1.Describes .standard ((all.map part).map Prod.fst) p.2 := by
    intro p hp
    obtain ⟨T, _, rfl⟩ := List.mem_map.mp hp
    rw [parts_definitions]
    exact definition_describes T
  have hp : ((chosen.map part).map (·.1.name)).Nodup := by
    rw [parts_names]
    exact List.Nodup.map name_injective hchosen
  have hc : ∀ p ∈ chosen.map part, p ∈ all.map part := by
    intro p hp
    obtain ⟨T, _, rfl⟩ := List.mem_map.mp hp
    exact List.mem_map_of_mem (mem_all T)
  have hl : Expression.areWithinLimit ((chosen.map part).map fun p => p.2.led) = true := by
    rw [List.map_map]
    exact hlimit
  obtain ⟨t, ht, hrules, htokens⟩ := Table.build_follows hn hd hp hc hl
  rw [parts_definitions, parts_names] at ht
  rw [parts_names] at htokens
  exact ⟨t, ht, List.forall₂_map_right_iff.mp hrules, htokens⟩

theorem nodup_tokens : tokens.Nodup := by
  decide

theorem table_built : Table.build definitions priority = .ok table := by
  obtain ⟨t, ht, _⟩ := exists_table nodup_tokens tokens_within
  rw [← priority_tokens] at ht
  rw [table, ht]
  rfl

theorem table_follows :
    List.Forall₂ (fun r T => r.Follows .standard (definition T) (form T)) table.rules all ∧
      table.tokenRules = (tokens.map name).filterMap table.rule? := by
  obtain ⟨t, ht, hrules, htokens⟩ := exists_table nodup_tokens tokens_within
  rw [← priority_tokens] at ht
  have htable : table = t := by
    rw [table, ht]
    rfl
  rw [htable]
  exact ⟨hrules, htokens⟩

section Following

variable {t : Table} (h : List.Forall₂ (fun r T => r.Follows .standard (definition T) (form T)) t.rules all)
include h

theorem following_rule (T : Terminal) :
    ∃ r, t.rule? T.name = some r ∧ r.Follows .standard T.definition T.form := by
  have hrules : List.Forall₂ (fun r p => r.Follows .standard p.1 p.2) t.rules (all.map part) :=
    List.forall₂_map_right_iff.mpr h
  have hn : ((all.map part).map (·.1.name)).Nodup := by
    rw [parts_names]
    exact nodup_names
  have hpart : part T ∈ all.map part := List.mem_map_of_mem (mem_all T)
  have hfound := Table.rule?_follows hrules hn hpart
  simp only [part, definition_name] at hfound
  exact hfound

theorem following_rules (chosen : List Terminal) :
    List.Forall₂ (fun r T => r.Follows .standard (definition T) (form T))
      ((chosen.map name).filterMap t.rule?) chosen := by
  induction chosen with
  | nil => exact .nil
  | cons T chosen ih =>
    obtain ⟨r, hr, hfollows⟩ := following_rule h T
    rw [List.map_cons, List.filterMap_cons_some hr]
    exact .cons hfollows ih

end Following

theorem exists_rule (T : Terminal) :
    ∃ r, table.rule? T.name = some r ∧ r.Follows .standard T.definition T.form :=
  following_rule table_follows.1 T

theorem rule?_isSome (T : Terminal) : (table.rule? T.name).isSome = true := by
  obtain ⟨r, hr, _⟩ := exists_rule T
  rw [hr]
  rfl

def rule (T : Terminal) : Rule := (table.rule? T.name).get (rule?_isSome T)

theorem rule?_name (T : Terminal) : table.rule? T.name = some T.rule :=
  (Option.some_get _).symm

theorem rule_follows (T : Terminal) : T.rule.Follows .standard T.definition T.form := by
  obtain ⟨r, hr, hfollows⟩ := exists_rule T
  have hsame : T.rule = r := by
    rw [rule?_name] at hr
    exact Option.some.inj hr
  rwa [hsame]

theorem rule_name (T : Terminal) : T.rule.name = T.name := by
  rw [(rule_follows T).name, definition_name]

theorem tokenRules_eq : table.tokenRules = tokens.map rule := by
  rw [table_follows.2]
  exact Table.filterMap_rule? rule?_name tokens

/-! Names and ranks -/

attribute [local irreducible] table rule

theorem mem_rules {r : Rule} (h : r ∈ table.rules) : ∃ T : Terminal, r.name = T.name := by
  obtain ⟨T, _, hfollows⟩ := exists_related table_follows.1 h
  exact ⟨T, hfollows.name.trans (definition_name T)⟩

theorem rule_mem_rules (T : Terminal) : T.rule ∈ table.rules :=
  List.mem_of_find?_eq_some (rule?_name T)

theorem rule_rank (T : Terminal) : T.rule.rank? = priority.idxOf? T.name := by
  rw [Table.build_ranks table_built (rule_mem_rules T), rule_name]

theorem not_token {T : Terminal} (hT : T ∉ tokens) : T.name ∉ priority := by
  rw [priority_tokens]
  intro h
  obtain ⟨S, hS, he⟩ := List.mem_map.mp h
  rw [name_injective he] at hS
  exact hT hS

theorem mem_names {name : String} : name ∈ table.names ↔ ∃ T : Terminal, name = T.name := by
  rw [Table.names, List.mem_append]
  constructor
  · rintro (h | h)
    · rw [tokenRules_eq] at h
      obtain ⟨r, hr, rfl⟩ := List.mem_map.mp h
      obtain ⟨T, _, rfl⟩ := List.mem_map.mp hr
      exact ⟨T, rule_name T⟩
    · obtain ⟨r, hr, rfl⟩ := List.mem_map.mp h
      exact mem_rules (List.mem_of_mem_filter hr)
  · rintro ⟨T, rfl⟩
    by_cases hT : T ∈ tokens
    · left
      rw [tokenRules_eq]
      exact List.mem_map.mpr ⟨T.rule, List.mem_map_of_mem hT, rule_name T⟩
    · right
      refine List.mem_map.mpr ⟨T.rule, List.mem_filter.mpr ⟨rule_mem_rules T, ?_⟩, rule_name T⟩
      rw [rule_rank, List.idxOf?_eq_none_iff.mpr (not_token hT)]
      rfl

end Terminal

end SparqlTokens.Sparql
