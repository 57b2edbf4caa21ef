import SparqlTokens.Proofs.Lexing.Optimum

/-! Tables whose token rules match the same but stand in different orders. What is cut does not ask
for the ranks of rules, but for their names, and which of several equally long candidates comes
first. Where it is the same in both orders, the tables read every text the same. -/
namespace SparqlTokens

open List (Forall₂)

/-- Two rules have one name, and match the same at the start of every text. -/
structure Rule.Twins (r s : Rule) : Prop where
  name : r.name = s.name
  leading : r.leading = s.leading

theorem Rule.Twins.leadingLength? {r s : Rule} (h : r.Twins s) :
    r.leadingLength? = s.leadingLength? := by
  funext text
  rw [Rule.leadingLength?, Rule.leadingLength?, h.leading]

namespace Candidate

structure Alike (c d : Candidate) : Prop where
  name : c.rule.name = d.rule.name
  lexeme : c.lexeme = d.lexeme

/-- A choice looks at lexemes alone. -/
theorem longest?_alike {cs ds : List Candidate} (h : Forall₂ Alike cs ds) :
    Option.Rel Alike (longest? cs) (longest? ds) := by
  induction h with
  | nil => exact .none
  | @cons c d cs ds hcd _ ih =>
    unfold longest?
    generalize longest? cs = longest at ih
    generalize longest? ds = longest' at ih
    cases ih with
    | none => exact .some hcd
    | @some c' d' hcd' =>
      dsimp only
      rw [hcd.lexeme, hcd'.lexeme]
      split
      · exact .some hcd'
      · exact .some hcd

/-- Where the order among equally long candidates is the same, the rest of the order makes no
difference. -/
theorem longest?_perm {cs ds : List Candidate} (h : cs.Perm ds) {R : Candidate → Candidate → Prop}
    (hR : ∀ {c d}, R c d → ¬ R d c)
    (hcs : cs.Pairwise fun c d => d.lexeme.length = c.lexeme.length → R c d)
    (hds : ds.Pairwise fun c d => d.lexeme.length = c.lexeme.length → R c d) :
    longest? cs = longest? ds := by
  cases hc : longest? cs with
  | none =>
    rw [longest?_none] at hc
    subst hc
    rw [List.nil_perm.mp h]
    rfl
  | some c =>
    cases hd : longest? ds with
    | none =>
      rw [longest?_none.mp hd] at h
      rw [List.perm_nil.mp h] at hc
      cases hc
    | some d =>
      have hdc : d ∈ cs := h.mem_iff.mpr (longest?_mem hd)
      have hcd : c ∈ ds := h.mem_iff.mp (longest?_mem hc)
      have hlength : d.lexeme.length = c.lexeme.length :=
        le_antisymm (longest?_max hc d hdc) (longest?_max hd c hcd)
      by_cases he : d = c
      · rw [he]
      · have hfirst := pairwise_find? hcs (longest?_first hc) hdc (decide_eq_true hlength)
        have hfirst' := pairwise_find? hds (longest?_first hd) hcd (decide_eq_true hlength.symm)
        have hbefore := hfirst.resolve_left he hlength
        have hbehind := hfirst'.resolve_left (Ne.symm he) hlength.symm
        exact absurd hbehind (hR hbefore)

end Candidate

namespace Table

variable {t u : Table}

section Twins

variable (hcontinues : t.continuesName = u.continuesName)
include hcontinues

theorem candidate?_twins {r s : Rule} (h : r.Twins s) (rest : List Char) :
    Option.Rel Candidate.Alike (t.candidate? rest r) (u.candidate? rest s) := by
  unfold candidate?
  rw [h.leadingLength?, h.name, hcontinues]
  split
  · exact .none
  · exact .none
  · split
    · exact .none
    · exact .some ⟨h.name, rfl⟩

theorem kept_twins {keep : Rule → Bool} (hkeep : ∀ {r s : Rule}, r.name = s.name → keep r = keep s)
    {rs ss : List Rule} (h : Forall₂ Rule.Twins rs ss) (rest : List Char) :
    Forall₂ Candidate.Alike ((rs.filterMap (t.candidate? rest)).filter fun c => keep c.rule)
      ((ss.filterMap (u.candidate? rest)).filter fun c => keep c.rule) := by
  have hcandidates : Forall₂ Candidate.Alike (rs.filterMap (t.candidate? rest))
      (ss.filterMap (u.candidate? rest)) :=
    List.rel_filterMap (R := Rule.Twins) (fun _ _ hrs => candidate?_twins hcontinues hrs rest) h
  apply List.rel_filter _ hcandidates
  intro c d hcd
  simp only [hkeep hcd.name]

end Twins

theorem admits_name {settings : Settings} {r s : Rule} (h : r.name = s.name) :
    settings.admits r = settings.admits s := by
  rw [Settings.admits, Settings.admits, h]

theorem cut_alike {settings : Settings} {rest : List Char}
    (h : Option.Rel Candidate.Alike (t.select? settings.admits rest)
      (u.select? settings.admits rest)) : t.cut settings rest = u.cut settings rest := by
  unfold cut
  generalize t.select? settings.admits rest = chosen at h
  generalize u.select? settings.admits rest = chosen' at h
  cases h with
  | none => rfl
  | some hcd =>
    dsimp only
    rw [hcd.name, hcd.lexeme]

end Table

end SparqlTokens
