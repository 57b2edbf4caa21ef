import SparqlTokens.Proofs.Grammar.Declarations

/-! The ranks of the rules of a table that could be built. They are places in the priority list,
which names no rule twice, and the token rules stand in their order. -/
namespace SparqlTokens

namespace Rule

def Precedes (r s : Rule) : Prop := ∃ m n, r.rank? = some m ∧ s.rank? = some n ∧ m < n

theorem Precedes.asymm {r s : Rule} (h : r.Precedes s) : ¬ s.Precedes r := by
  rintro ⟨n', m', hn', hm', hlt'⟩
  obtain ⟨m, n, hm, hn, hlt⟩ := h
  have hmm : m' = m := Option.some.inj (hm'.symm.trans hm)
  have hnn : n' = n := Option.some.inj (hn'.symm.trans hn)
  omega

theorem Precedes.ne {r s : Rule} (h : r.Precedes s) : r ≠ s := by
  intro he
  subst he
  exact h.asymm h

end Rule

section Places

variable {α : Type} [DecidableEq α] {l : List α}

theorem idxOf?_getElem (hn : l.Nodup) {i : ℕ} (hi : i < l.length) : l.idxOf? l[i] = some i := by
  rw [List.idxOf?_eq_some_iff]
  refine ⟨hi, rfl, ?_⟩
  intro j hj he
  have := (List.Nodup.getElem_inj_iff hn).mp he
  omega

theorem idxOf?_isSome {a : α} : (l.idxOf? a).isSome = true ↔ a ∈ l := by
  rw [← not_iff_not, Bool.not_eq_true, Option.isSome_eq_false_iff, Option.isNone_iff_eq_none,
    List.idxOf?_eq_none_iff]

end Places

namespace Table

variable {properties : Pattern.Properties} {definitions : List Definition} {priority : List String}
  {t : Table} (h : build definitions priority properties = .ok t)
include h

theorem build_names : t.rules.map (·.name) = definitions.map (·.name) :=
  declared_names (build_declares h)

theorem build_priority : priority.Nodup ∧ ∀ n ∈ priority, n ∈ t.rules.map (·.name) := by
  obtain ⟨texts, htexts, _⟩ := build_ok h
  rw [build_phases (build_nodup h) htexts] at h
  split at h
  · cases h
  · next hfault =>
    obtain ⟨hdefined, hn, _⟩ := priorityFault?_none_iff.mp hfault
    refine ⟨hn, fun n hmem => ?_⟩
    obtain ⟨rules, hrules, hassemble⟩ := ok_of_bind h
    unfold assemble at hassemble
    dsimp only at hassemble
    split at hassemble
    · cases hassemble
      rw [declared_names (mapM_ok_iff.mp hrules)]
      exact hdefined n hmem
    · cases hassemble

theorem rule?_iff {name : String} {r : Rule} :
    t.rule? name = some r ↔ r ∈ t.rules ∧ r.name = name :=
  find?_iff (build_names h ▸ build_nodup h)

theorem mem_tokenRules {r : Rule} : r ∈ t.tokenRules ↔ r ∈ t.rules ∧ r.rank?.isSome = true := by
  obtain ⟨_, _, _, htokens⟩ := build_ok h
  rw [htokens, List.mem_filterMap]
  constructor
  · rintro ⟨n, hn, hfound⟩
    obtain ⟨hr, rfl⟩ := (rule?_iff h).mp hfound
    exact ⟨hr, by rwa [build_ranks h hr, idxOf?_isSome]⟩
  · rintro ⟨hr, hrank⟩
    rw [build_ranks h hr, idxOf?_isSome] at hrank
    exact ⟨r.name, hrank, (rule?_iff h).mpr ⟨hr, rfl⟩⟩

theorem tokenRules_names : t.tokenRules.map (·.name) = priority := by
  obtain ⟨_, _, _, htokens⟩ := build_ok h
  have hnames : ∀ ns : List String, (∀ n ∈ ns, n ∈ priority) →
      (ns.filterMap t.rule?).map (·.name) = ns := by
    intro ns hns
    induction ns with
    | nil => rfl
    | cons n ns ih =>
      rw [List.forall_mem_cons] at hns
      obtain ⟨r, hr, hname⟩ := List.mem_map.mp ((build_priority h).2 n hns.1)
      have hrule : t.rule? n = some r := (rule?_iff h).mpr ⟨hr, hname⟩
      rw [List.filterMap_cons_some hrule, List.map_cons, hname, ih hns.2]
  rw [htokens]
  exact hnames priority fun n hn => hn

/-- The token rules stand in the order of their ranks, none of them twice. -/
theorem tokenRules_ranked : t.tokenRules.Pairwise Rule.Precedes := by
  rw [List.pairwise_iff_getElem]
  intro i j hi hj hlt
  have hrank : ∀ k (hk : k < t.tokenRules.length), t.tokenRules[k].rank? = some k := by
    intro k hk
    have hnames := tokenRules_names h
    have hk' : k < priority.length := by rw [← hnames, List.length_map]; exact hk
    have hname : t.tokenRules[k].name = priority[k] := by simp only [← hnames, List.getElem_map]
    rw [build_ranks h ((mem_tokenRules h).mp (List.getElem_mem hk)).1, hname]
    exact idxOf?_getElem (build_priority h).1 hk'
  exact ⟨i, j, hrank i hi, hrank j hj, hlt⟩

end Table

end SparqlTokens
