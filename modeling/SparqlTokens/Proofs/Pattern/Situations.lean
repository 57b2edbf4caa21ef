import Mathlib.Data.Set.Insert
import SparqlTokens.Pattern.Frontier
import SparqlTokens.Proofs.Pattern.CharSets

/-! The situations that reading can lead to. Before the next character only the sets at the front of
a residual are asked about it, so one character for each way in which they answer stands for all. A
property of every situation that can be reached is decided by a search, which ends because there are
finitely many. -/
namespace SparqlTokens.Pattern

/-! Searching -/

section Search

variable {α : Type} (check : α → Bool) (next : α → List α)

/-- Situations that pass a check and lead to one another only. -/
def Closed (R : Set α) : Prop := ∀ a ∈ R, check a = true ∧ ∀ b ∈ next a, b ∈ R

/-- Whether all that can be reached from `todo` passes the check, found in at most `bound` steps;
`known` has been searched before. -/
def searched [BEq α] : ℕ → List α → List α → Bool
  | 0, _, _ => false
  | _ + 1, _, [] => true
  | bound + 1, known, a :: todo =>
    if known.contains a then searched bound known todo
    else check a && searched bound (a :: known) (next a ++ todo)

variable {check next} [BEq α] [LawfulBEq α]

theorem searched_all {bound : ℕ} {known todo : List α}
    (h : searched check next bound known todo = true) : ∃ R : Set α, (∀ a ∈ todo, a ∈ R) ∧
      ∀ a ∈ R, a ∈ known ∨ check a = true ∧ ∀ b ∈ next a, b ∈ R := by
  induction bound generalizing known todo with
  | zero => cases h
  | succ bound ih =>
    cases todo with
    | nil => exact ⟨∅, fun _ ha => absurd ha List.not_mem_nil, fun _ ha => absurd ha id⟩
    | cons a todo =>
      unfold searched at h
      split at h
      · next hknown =>
        obtain ⟨R, htodo, hR⟩ := ih h
        refine ⟨insert a R, List.forall_mem_cons.mpr ⟨Or.inl rfl, fun b hb => ?_⟩, ?_⟩
        · exact Or.inr (htodo b hb)
        · rintro b (rfl | hb)
          · exact Or.inl (List.contains_iff_mem.mp hknown)
          · exact (hR b hb).imp_right fun h => ⟨h.1, fun c hc => Or.inr (h.2 c hc)⟩
      · obtain ⟨hcheck, h⟩ := Bool.and_eq_true_iff.mp h
        obtain ⟨R, htodo, hR⟩ := ih h
        obtain ⟨hnext, htodo⟩ := List.forall_mem_append.mp htodo
        have ha : check a = true ∧ ∀ c ∈ next a, c ∈ insert a R :=
          ⟨hcheck, fun c hc => Or.inr (hnext c hc)⟩
        refine ⟨insert a R, List.forall_mem_cons.mpr ⟨Or.inl rfl, fun b hb => ?_⟩, ?_⟩
        · exact Or.inr (htodo b hb)
        · rintro b (rfl | hb)
          · exact Or.inr ha
          · rcases hR b hb with hb | h
            · rcases List.mem_cons.mp hb with rfl | hb
              · exact Or.inr ha
              · exact Or.inl hb
            · exact Or.inr ⟨h.1, fun c hc => Or.inr (h.2 c hc)⟩

theorem closed_of_searched {bound : ℕ} {todo : List α}
    (h : searched check next bound [] todo = true) :
    ∃ R : Set α, (∀ a ∈ todo, a ∈ R) ∧ Closed check next R := by
  obtain ⟨R, htodo, hR⟩ := searched_all h
  exact ⟨R, htodo, fun a ha => (hR a ha).resolve_left List.not_mem_nil⟩

end Search

/-! Characters that are not told apart -/

/-- Whether a pattern may be passed without reading anything. -/
def isSkippable : Pattern → Bool
  | set _ _ => false
  | cat p q => p.isSkippable && q.isSkippable
  | either _ p q => p.isSkippable || q.isSkippable
  | times n p => n == 0 || p.isSkippable
  | empty | textStart | textEnd | again _ _ _ | upTo _ _ _ _ => true

/-- The sets that may be asked about the next character. -/
def front : Pattern → List CharSet
  | set _ s => [s]
  | cat p q => if p.isSkippable then p.front ++ q.front else p.front
  | either _ p q => p.front ++ q.front
  | again _ _ p | times _ p | upTo _ _ _ p => p.front
  | empty | textStart | textEnd => []

def Residual.front : Residual → List CharSet
  | [] => []
  | p :: k => if p.isSkippable then p.front ++ front k else p.front

/-- Two characters that some sets do not tell apart. -/
def Alike (ss : List CharSet) (c d : Char) : Prop := ∀ s ∈ ss, s.contains c = s.contains d

theorem alike_append {ss ts : List CharSet} {c d : Char} :
    Alike (ss ++ ts) c d ↔ Alike ss c d ∧ Alike ts c d := List.forall_mem_append

section Rounds

variable {visit visit' : Residual → (Frontier → Frontier) → Frontier → Frontier} {p : Pattern}
  {k : Residual} {after after' : Frontier → Frontier}

theorem visitTimes_alike
    (hv : ∀ l step step', (p.isSkippable = true → step = step') → visit l step = visit' l step')
    (n : ℕ) (ha : (times n p).isSkippable = true → after = after') :
    Frontier.visitTimes visit p k after n = Frontier.visitTimes visit' p k after' n := by
  induction n with
  | zero => exact ha rfl
  | succ n ih =>
    funext f
    have hround := hv (times n p :: k) _ _ fun hskip =>
      ih fun _ => ha (by simp [isSkippable, hskip])
    exact congrFun hround f

theorem visitUpTo_alike
    (hv : ∀ l step step', (p.isSkippable = true → step = step') → visit l step = visit' l step')
    (place : ℕ) (greedy : Bool) (n : ℕ) :
    Frontier.visitUpTo visit place greedy p k after n =
      Frontier.visitUpTo visit' place greedy p k after n := by
  induction n with
  | zero => rfl
  | succ n ih =>
    funext f
    simp only [Frontier.visitUpTo, hv _ _ _ fun _ => ih]

end Rounds

/-- What is visited behind a pattern matters only if the pattern may be passed. -/
theorem visit_alike (b : Bool) {p : Pattern} {c d : Char} {k : Residual}
    {after after' : Frontier → Frontier} (h : Alike p.front c d)
    (ha : p.isSkippable = true → after = after') :
    Frontier.visit b (some c) p k after = Frontier.visit b (some d) p k after' := by
  induction p generalizing k after after' with
  | empty => exact ha rfl
  | textStart | textEnd =>
    rw [ha rfl]
    rfl
  | set place s =>
    have hs : s.contains c = s.contains d := h s List.mem_cons_self
    funext f
    simp only [Frontier.visit, Option.any_some, hs]
  | cat p q hp hq =>
    funext f
    simp only [Frontier.visit]
    by_cases hskip : p.isSkippable = true
    · simp only [front, hskip, if_true] at h
      obtain ⟨hfirst, hsecond⟩ := alike_append.mp h
      rw [hp hfirst fun _ => hq hsecond fun hskip' => ?_]
      exact ha (Bool.and_eq_true_iff.mpr ⟨hskip, hskip'⟩)
    · simp only [front, hskip] at h
      rw [hp h fun hskip' => absurd hskip' hskip]
  | either place p q hp hq =>
    obtain ⟨hfirst, hsecond⟩ := alike_append.mp h
    have h₁ : Frontier.visit b (some c) p k after = Frontier.visit b (some d) p k after' :=
      hp hfirst fun hskip => ha (Bool.or_eq_true_iff.mpr (Or.inl hskip))
    have h₂ : Frontier.visit b (some c) q k after = Frontier.visit b (some d) q k after' :=
      hq hsecond fun hskip => ha (Bool.or_eq_true_iff.mpr (Or.inr hskip))
    funext f
    simp only [Frontier.visit, h₁, h₂]
  | again place greedy p ih =>
    funext f
    simp only [Frontier.visit, ih h fun _ => rfl, ha rfl]
  | times n p ih =>
    funext f
    simp only [Frontier.visit]
    rw [visitTimes_alike (fun l step step' hstep => ih (k := l) h hstep) n ha]
  | upTo place greedy n p ih =>
    funext f
    simp only [Frontier.visit, ha rfl]
    rw [visitUpTo_alike fun l step step' hstep => ih (k := l) h hstep]

theorem visitAll_alike (b : Bool) {r : Residual} {c d : Char} (h : Alike r.front c d) :
    Frontier.visitAll b (some c) r = Frontier.visitAll b (some d) r := by
  induction r with
  | nil => rfl
  | cons p k ih =>
    funext f
    simp only [Frontier.visitAll]
    by_cases hskip : p.isSkippable = true
    · simp only [Residual.front, hskip, if_true] at h
      obtain ⟨hfirst, hrest⟩ := alike_append.mp h
      rw [visit_alike b hfirst fun _ => ih hrest]
    · simp only [Residual.front, hskip] at h
      rw [visit_alike b h fun hskip' => absurd hskip' hskip]

theorem courses_alike (b : Bool) {rs : List Residual} {c d : Char}
    (h : ∀ r ∈ rs, Alike r.front c d) : courses b (some c) rs = courses b (some d) rs := by
  rw [courses, courses, List.foldl_ext _ _ _ fun f r hr => by rw [visitAll_alike b (h r hr)]]

/-- The sets that may be asked about the next character. -/
def asked (rs : List Residual) : List CharSet := (rs.flatMap Residual.front).eraseDups

theorem exists_greatest_bound (bs : List ℕ) (n : ℕ) :
    ∃ m ∈ 0 :: bs, m ≤ n ∧ ∀ x ∈ bs, x ≤ n → x ≤ m := by
  induction bs with
  | nil => exact ⟨0, List.mem_cons_self, Nat.zero_le n, fun x hx => (by cases hx)⟩
  | cons y bs ih =>
    obtain ⟨m, hm, hle, hmax⟩ := ih
    by_cases hy : m ≤ y ∧ y ≤ n
    · refine ⟨y, by simp, hy.2, fun x hx hxn => ?_⟩
      rcases List.mem_cons.mp hx with rfl | hx
      · exact le_rfl
      · exact (hmax x hx hxn).trans hy.1
    · refine ⟨m, ?_, hle, fun x hx hxn => ?_⟩
      · rcases List.mem_cons.mp hm with rfl | hm
        · exact List.mem_cons_self
        · exact List.mem_cons_of_mem _ (List.mem_cons_of_mem _ hm)
      · rcases List.mem_cons.mp hx with rfl | hx
        · omega
        · exact hmax x hx hxn

instance (ss : List CharSet) (c d : Char) : Decidable (Alike ss c d) :=
  inferInstanceAs (Decidable (∀ s ∈ ss, s.contains c = s.contains d))

/-- Some of a list of characters, one of each kind that some sets tell apart. -/
def representatives (ss : List CharSet) : List Char → List Char
  | [] => []
  | c :: cs =>
    let chosen := representatives ss cs
    if chosen.any fun d => decide (Alike ss c d) then chosen else c :: chosen

theorem exists_representative {ss : List CharSet} {cs : List Char} {c : Char} (h : c ∈ cs) :
    ∃ d ∈ representatives ss cs, Alike ss c d := by
  induction cs with
  | nil => cases h
  | cons b cs ih =>
    unfold representatives
    by_cases hb : ((representatives ss cs).any fun d => decide (Alike ss b d)) = true
    · simp only [hb, if_true]
      rcases List.mem_cons.mp h with rfl | h
      · obtain ⟨d, hd, hcd⟩ := List.any_eq_true.mp hb
        exact ⟨d, hd, of_decide_eq_true hcd⟩
      · exact ih h
    · simp only [hb]
      rcases List.mem_cons.mp h with rfl | h
      · exact ⟨c, List.mem_cons_self, fun s _ => rfl⟩
      · obtain ⟨d, hd, hcd⟩ := ih h
        exact ⟨d, List.mem_cons_of_mem _ hd, hcd⟩

/-- A character for each way in which some residuals tell the next character apart. -/
def probes (rs : List Residual) : List Char :=
  representatives (asked rs)
    ((0 :: ((asked rs).flatMap CharSet.bounds).eraseDups).map fun n =>
      Char.ofNat (CharSet.codePoint n))

theorem exists_probe (rs : List Residual) (c : Char) :
    ∃ d ∈ probes rs, ∀ r ∈ rs, Alike r.front c d := by
  obtain ⟨m, hm, hle, hmax⟩ := exists_greatest_bound ((asked rs).flatMap CharSet.bounds).eraseDups
    (CharSet.ordinal c)
  obtain ⟨d, hd, halike⟩ : ∃ d ∈ probes rs, Alike (asked rs) (Char.ofNat (CharSet.codePoint m)) d :=
    exists_representative (List.mem_map_of_mem (f := fun n => Char.ofNat (CharSet.codePoint n)) hm)
  refine ⟨d, hd, ?_⟩
  intro r hr s hs
  have hasked : s ∈ asked rs := List.mem_eraseDups.mpr (List.mem_flatMap.mpr ⟨r, hr, hs⟩)
  rw [← halike s hasked]
  apply CharSet.insideAt_congr
  intro x hx
  rw [CharSet.ordinal_ofNat (hle.trans_lt (CharSet.ordinal_lt c))]
  have hmem : x ∈ ((asked rs).flatMap CharSet.bounds).eraseDups :=
    List.mem_eraseDups.mpr (List.mem_flatMap.mpr ⟨s, hasked, hx⟩)
  exact ⟨hmax x hmem, fun h => h.trans hle⟩

end SparqlTokens.Pattern
