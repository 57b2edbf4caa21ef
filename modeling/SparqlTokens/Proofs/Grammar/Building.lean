import Mathlib.Data.List.Forall2
import Mathlib.Data.List.Nodup
import Mathlib.Data.List.Perm.Basic
import SparqlTokens.Grammar.Table

/-! When a table is built, and of what: definitions with different names whose expanded texts
describe known expressions, and a priority list that names some of them once each. -/
namespace SparqlTokens

theorem bind_ok {α β ε : Type} {x : Except ε α} {a : α} {f : α → Except ε β} (h : x = .ok a) :
    (x >>= f) = f a := by
  rw [h]; rfl

theorem ok_of_bind {α β ε : Type} {x : Except ε α} {f : α → Except ε β} {b : β}
    (h : (x >>= f) = .ok b) : ∃ a, x = .ok a ∧ f a = .ok b := by
  cases x with
  | error e => cases h
  | ok a => exact ⟨a, rfl, h⟩

theorem exists_related {α β : Type} {R : α → β → Prop} {as : List α} {bs : List β}
    (h : List.Forall₂ R as bs) {a : α} (ha : a ∈ as) : ∃ b ∈ bs, R a b := by
  induction h with
  | nil => cases ha
  | @cons a' b as bs hab _ ih =>
    rcases List.mem_cons.mp ha with rfl | ha
    · exact ⟨b, List.mem_cons_self, hab⟩
    · obtain ⟨c, hc, hac⟩ := ih ha
      exact ⟨c, List.mem_cons_of_mem _ hc, hac⟩

theorem mapM_ok_iff {α β ε : Type} {f : α → Except ε β} {xs : List α} {ys : List β} :
    xs.mapM f = .ok ys ↔ List.Forall₂ (fun x y => f x = .ok y) xs ys := by
  induction xs generalizing ys with
  | nil =>
    constructor
    · intro h; cases h; exact .nil
    · intro h; cases h; rfl
  | cons x xs ih =>
    rw [List.mapM_cons]
    constructor
    · intro h
      cases hx : f x with
      | error e => rw [hx] at h; cases h
      | ok y =>
        cases hxs : xs.mapM f with
        | error e => rw [hx, hxs] at h; cases h
        | ok zs => rw [hx, hxs] at h; cases h; exact .cons hx (ih.mp hxs)
    · intro h
      cases h with
      | cons hx hxs => rw [hx, ih.mpr hxs]; rfl

theorem mapM_some_iff {α β : Type} {f : α → Option β} {xs : List α} {ys : List β} :
    xs.mapM f = some ys ↔ List.Forall₂ (fun x y => f x = some y) xs ys := by
  induction xs generalizing ys with
  | nil =>
    constructor
    · intro h; cases h; exact .nil
    · intro h; cases h; rfl
  | cons x xs ih =>
    rw [List.mapM_cons]
    constructor
    · intro h
      cases hx : f x with
      | none => rw [hx] at h; cases h
      | some y =>
        cases hxs : xs.mapM f with
        | none => rw [hx, hxs] at h; cases h
        | some zs => rw [hx, hxs] at h; cases h; exact .cons hx (ih.mp hxs)
    · intro h
      cases h with
      | cons hx hxs => rw [hx, ih.mpr hxs]; rfl

theorem mapM_ok {α β ε : Type} {f : α → Except ε β} {as : List α} {bs : List β}
    (h : as.mapM f = .ok bs) : List.Forall₂ (fun b a => f a = .ok b) bs as :=
  (mapM_ok_iff.mp h).flip

theorem mapM_error {α β ε : Type} {f : α → Except ε β} {as : List α} {e : ε}
    (h : as.mapM f = .error e) : ∃ a ∈ as, f a = .error e := by
  induction as with
  | nil => cases h
  | cons a as ih =>
    rw [List.mapM_cons] at h
    cases ha : f a with
    | error e' =>
      rw [ha] at h
      cases h
      exact ⟨a, List.mem_cons_self, ha⟩
    | ok b =>
      rw [bind_ok ha] at h
      cases hrest : as.mapM f with
      | error e' =>
        rw [hrest] at h
        cases h
        obtain ⟨c, hc, hfc⟩ := ih hrest
        exact ⟨c, List.mem_cons_of_mem a hc, hfc⟩
      | ok bs =>
        rw [hrest] at h
        cases h

section Keyed

variable {α : Type} {key : α → String} {l m : List α}

theorem find?_keyed {name : String} {a : α} (h : l.find? (fun b => key b = name) = some a) :
    a ∈ l ∧ key a = name :=
  ⟨List.mem_of_find?_eq_some h, of_decide_eq_true (List.find?_some h :)⟩

theorem find?_iff (hn : (l.map key).Nodup) {name : String} {a : α} :
    l.find? (fun b => key b = name) = some a ↔ a ∈ l ∧ key a = name := by
  constructor
  · exact find?_keyed
  · rintro ⟨ha, rfl⟩
    cases hfound : l.find? fun b => key b = key a with
    | none => exact absurd (decide_eq_true rfl) (List.find?_eq_none.mp hfound a ha)
    | some b =>
      obtain ⟨hb, hkey⟩ := find?_keyed hfound
      rw [List.inj_on_of_nodup_map hn hb ha hkey]

theorem find?_perm (h : l.Perm m) (hn : (l.map key).Nodup) (name : String) :
    l.find? (fun a => key a = name) = m.find? (fun a => key a = name) := by
  have hm : (m.map key).Nodup := (h.map key).nodup_iff.mp hn
  ext a
  rw [find?_iff hn, find?_iff hm, h.mem_iff]

end Keyed

namespace Expression

/-- What the text of a match at the start describes. -/
def led (e : Expression) : Expression := cat textStart e

/-- What the text of a match of a whole text describes. -/
def enclosed (e : Expression) : Expression := cat textStart (ofFactors (e.factors ++ [textEnd]))

end Expression

open Expression (parse areWithinLimit)
open Pattern (Properties)

/-- The expanded text of a definition describes `e`. -/
def Definition.Describes (properties : Properties) (definitions : List Definition)
    (d : Definition) (e : Expression) : Prop :=
  ∃ text, Definition.expand definitions d = .ok text ∧
    parse properties (Rule.leadingText text) = .ok e.led ∧
    parse properties (Rule.wholeText text) = .ok e.enclosed

/-- The rule that is made of a definition whose text describes `e`. -/
structure Rule.Follows (properties : Properties) (r : Rule) (d : Definition) (e : Expression) :
    Prop where
  name : r.name = d.name
  leading : r.leading = e.led.pattern
  whole : r.whole = e.enclosed.pattern
  expression : r.expression? properties = some e.led

namespace Table

theorem firstRepeated?_none_iff {seen ns : List String} :
    firstRepeated? seen ns = none ↔ ns.Nodup ∧ ∀ n ∈ ns, n ∉ seen := by
  induction ns generalizing seen with
  | nil => simp [firstRepeated?]
  | cons n ns ih =>
    rw [firstRepeated?, List.nodup_cons, List.forall_mem_cons]
    by_cases hn : n ∈ seen
    · simp [hn]
    · rw [if_neg hn, ih]
      constructor
      · rintro ⟨hnodup, hseen⟩
        exact ⟨⟨fun hmem => hseen n hmem List.mem_cons_self, hnodup⟩, hn,
          fun m hm hmem => hseen m hm (List.mem_cons_of_mem n hmem)⟩
      · rintro ⟨⟨hfirst, hnodup⟩, _, hseen⟩
        refine ⟨hnodup, fun m hm hmem => ?_⟩
        rcases List.mem_cons.mp hmem with rfl | hmem
        · exact hfirst hm
        · exact hseen m hm hmem

theorem firstRepeated?_nodup {ns : List String} : firstRepeated? [] ns = none ↔ ns.Nodup := by
  simp [firstRepeated?_none_iff]

/-- A priority list has no fault if it names definitions, and each of them once. -/
theorem priorityFault?_none_iff {defined seen ns : List String} :
    priorityFault? defined seen ns = none ↔
      (∀ n ∈ ns, n ∈ defined) ∧ ns.Nodup ∧ ∀ n ∈ ns, n ∉ seen := by
  induction ns generalizing seen with
  | nil => simp [priorityFault?]
  | cons n ns ih =>
    rw [priorityFault?, List.nodup_cons, List.forall_mem_cons, List.forall_mem_cons]
    by_cases hdefined : n ∈ defined
    · by_cases hseen : n ∈ seen
      · simp [hdefined, hseen]
      · rw [if_neg (not_not_intro hdefined), if_neg hseen, ih]
        constructor
        · rintro ⟨hd, hn, hs⟩
          exact ⟨⟨hdefined, hd⟩, ⟨fun hmem => hs n hmem List.mem_cons_self, hn⟩, hseen,
            fun m hm hmem => hs m hm (List.mem_cons_of_mem n hmem)⟩
        · rintro ⟨⟨_, hd⟩, ⟨hfirst, hn⟩, _, hs⟩
          refine ⟨hd, hn, fun m hm hmem => ?_⟩
          rcases List.mem_cons.mp hmem with rfl | hmem
          · exact hfirst hm
          · exact hs m hm hmem
    · simp [hdefined]

variable {properties : Properties}

theorem compile_follows {d : Definition} {e : Expression} {text : List Char}
    (hlead : parse properties (Rule.leadingText text) = .ok e.led)
    (hwhole : parse properties (Rule.wholeText text) = .ok e.enclosed) (rank? : Option ℕ) :
    ∃ r, Rule.compile properties d text rank? = .ok r ∧ r.Follows properties d e := by
  unfold Rule.compile
  rw [hlead, hwhole]
  refine ⟨_, rfl, rfl, rfl, rfl, ?_⟩
  rw [Rule.expression?, String.toList_ofList, hlead]
  rfl

variable {parts : List (Definition × Expression)}

/-- Texts of definitions, described by their expressions. -/
def Described (properties : Properties) (text : List Char) (e : Expression) : Prop :=
  parse properties (Rule.leadingText text) = .ok e.led ∧
    parse properties (Rule.wholeText text) = .ok e.enclosed

theorem expand_parts {definitions : List Definition}
    (hd : ∀ p ∈ parts, p.1.Describes properties definitions p.2) :
    ∃ texts, (parts.map Prod.fst).mapM (Definition.expand definitions) = .ok texts ∧
      List.Forall₂ (fun text p => Described properties text p.2) texts parts := by
  induction parts with
  | nil => exact ⟨[], rfl, .nil⟩
  | cons p parts ih =>
    obtain ⟨text, htext, hp⟩ := hd p List.mem_cons_self
    obtain ⟨texts, htexts, hparts⟩ := ih fun q hq => hd q (List.mem_cons_of_mem _ hq)
    refine ⟨text :: texts, ?_, .cons hp hparts⟩
    rw [List.map_cons, List.mapM_cons, htext, htexts]
    rfl

theorem compile_parts {texts : List (List Char)} (priority : List String)
    (h : List.Forall₂ (fun text p => Described properties text p.2) texts parts) :
    ∃ rules, ((parts.map Prod.fst).zip texts).mapM
        (fun (d, text) => Rule.compile properties d text (priority.idxOf? d.name)) = .ok rules ∧
      List.Forall₂ (fun r p => r.Follows properties p.1 p.2) rules parts := by
  induction h with
  | nil => exact ⟨[], rfl, .nil⟩
  | @cons text p texts parts hp _ ih =>
    obtain ⟨rules, hrules, hparts⟩ := ih
    obtain ⟨r, hr, hfollows⟩ := compile_follows (d := p.1) hp.1 hp.2 (priority.idxOf? p.1.name)
    refine ⟨r :: rules, ?_, .cons hfollows hparts⟩
    rw [List.map_cons, List.zip_cons_cons, List.mapM_cons, hrules]
    simp only [hr]
    rfl

theorem find?_follows {rules : List Rule}
    (h : List.Forall₂ (fun r p => r.Follows properties p.1 p.2) rules parts)
    (hn : (parts.map (·.1.name)).Nodup) {p : Definition × Expression} (hp : p ∈ parts) :
    ∃ r, rules.find? (·.name = p.1.name) = some r ∧ r.Follows properties p.1 p.2 := by
  induction h with
  | nil => cases hp
  | @cons r q rules parts hr _ ih =>
    rw [List.map_cons, List.nodup_cons] at hn
    rcases List.mem_cons.mp hp with rfl | hp
    · exact ⟨r, List.find?_cons_of_pos (by simp [hr.name]), hr⟩
    · have hne : r.name ≠ p.1.name := by
        intro he
        rw [hr.name] at he
        exact hn.1 (List.mem_map.mpr ⟨p, hp, he.symm⟩)
      rw [List.find?_cons_of_neg (by simp [hne])]
      exact ih hn.2 hp

theorem chosen_follow {rules : List Rule} {chosen : List (Definition × Expression)}
    (h : List.Forall₂ (fun r p => r.Follows properties p.1 p.2) rules parts)
    (hn : (parts.map (·.1.name)).Nodup) (hc : ∀ p ∈ chosen, p ∈ parts) :
    List.Forall₂ (fun r p => r.Follows properties p.1 p.2)
      ((chosen.map (·.1.name)).filterMap fun n => rules.find? (·.name = n)) chosen := by
  induction chosen with
  | nil => exact .nil
  | cons p chosen ih =>
    obtain ⟨r, hr, hfollows⟩ := find?_follows h hn (hc p List.mem_cons_self)
    rw [List.map_cons, List.filterMap_cons, hr]
    exact .cons hfollows (ih fun q hq => hc q (List.mem_cons_of_mem _ hq))

theorem chosen_expressions {rules : List Rule}
    (h : List.Forall₂ (fun r p => r.Follows properties p.1 p.2) rules parts) :
    rules.filterMap (Rule.expression? properties) = parts.map fun p => p.2.led := by
  induction h with
  | nil => rfl
  | cons hr _ ih => rw [List.filterMap_cons_some hr.expression, ih, List.map_cons]

/-- Definitions with different names that describe expressions make a table of rules that follow
them, and a priority list that names some of them once each chooses its token rules. -/
theorem build_follows {chosen : List (Definition × Expression)}
    (hn : (parts.map (·.1.name)).Nodup)
    (hd : ∀ p ∈ parts, p.1.Describes properties (parts.map Prod.fst) p.2)
    (hp : (chosen.map (·.1.name)).Nodup) (hc : ∀ p ∈ chosen, p ∈ parts)
    (hl : areWithinLimit (chosen.map fun p => p.2.led) = true) :
    ∃ t, build (parts.map Prod.fst) (chosen.map (·.1.name)) properties = .ok t ∧
      List.Forall₂ (fun r p => r.Follows properties p.1 p.2) t.rules parts ∧
      t.tokenRules = (chosen.map (·.1.name)).filterMap t.rule? := by
  obtain ⟨texts, htexts, hdescribed⟩ := expand_parts hd
  obtain ⟨rules, hrules, hfollow⟩ := compile_parts (chosen.map (·.1.name)) hdescribed
  have hnames : (parts.map Prod.fst).map (·.name) = parts.map (·.1.name) := List.map_map
  have hfirst : firstRepeated? [] ((parts.map Prod.fst).map (·.name)) = none := by
    rw [hnames]
    exact firstRepeated?_nodup.mpr hn
  have hfault : priorityFault? ((parts.map Prod.fst).map (·.name)) [] (chosen.map (·.1.name)) =
      none := by
    refine priorityFault?_none_iff.mpr ⟨?_, hp, fun n _ => List.not_mem_nil⟩
    intro n hmem
    obtain ⟨p, hp, rfl⟩ := List.mem_map.mp hmem
    rw [hnames]
    exact List.mem_map_of_mem (hc p hp)
  let tokenRules := (chosen.map (·.1.name)).filterMap fun n => rules.find? (·.name = n)
  refine ⟨⟨rules, tokenRules⟩, ?_, hfollow, rfl⟩
  rw [← chosen_expressions (chosen_follow hfollow hn hc)] at hl
  simp only [build, hfirst, htexts, hfault, bind_ok rfl, hrules, hl]
  rfl

/-- What a table that could be built is made of. -/
theorem build_ok {definitions : List Definition} {priority : List String} {t : Table}
    (h : build definitions priority properties = .ok t) :
    ∃ texts, definitions.mapM (Definition.expand definitions) = .ok texts ∧
      ((definitions.zip texts).mapM fun (d, text) =>
        Rule.compile properties d text (priority.idxOf? d.name)) = .ok t.rules ∧
      t.tokenRules = priority.filterMap fun n => t.rules.find? (·.name = n) := by
  unfold build at h
  dsimp only at h
  split at h
  · cases h
  · obtain ⟨texts, htexts, h⟩ := ok_of_bind h
    split at h
    · cases h
    · obtain ⟨rules, hrules, h⟩ := ok_of_bind h
      split at h
      · cases h
        exact ⟨texts, htexts, hrules, rfl⟩
      · cases h

theorem compile_ok {d : Definition} {text : List Char} {rank? : Option ℕ} {r : Rule}
    (h : Rule.compile properties d text rank? = .ok r) :
    r.name = d.name ∧ r.template = d.template ∧ r.expanded.toList = text ∧ r.rank? = rank? := by
  unfold Rule.compile at h
  split at h
  · cases h
    exact ⟨rfl, rfl, String.toList_ofList, rfl⟩
  · cases h

/-- The rank of a rule is the place of its name in the priority list. -/
theorem build_ranks {definitions : List Definition} {priority : List String} {t : Table}
    (h : build definitions priority properties = .ok t) {r : Rule} (hr : r ∈ t.rules) :
    r.rank? = priority.idxOf? r.name := by
  obtain ⟨texts, _, hrules, _⟩ := build_ok h
  obtain ⟨p, _, hp⟩ := exists_related (mapM_ok hrules) hr
  obtain ⟨hname, _, _, hrank⟩ := compile_ok hp
  rw [hrank, hname]

theorem rule?_follows {t : Table} (h : List.Forall₂ (fun r p => r.Follows properties p.1 p.2) t.rules parts)
    (hn : (parts.map (·.1.name)).Nodup) {p : Definition × Expression} (hp : p ∈ parts) :
    ∃ r, t.rule? p.1.name = some r ∧ r.Follows properties p.1 p.2 :=
  find?_follows h hn hp

theorem filterMap_rule? {α : Type} {t : Table} {name : α → String} {rule : α → Rule}
    (h : ∀ a, t.rule? (name a) = some (rule a)) (l : List α) :
    (l.map name).filterMap t.rule? = l.map rule := by
  induction l with
  | nil => rfl
  | cons a l ih => rw [List.map_cons, List.filterMap_cons_some (h a), ih, List.map_cons]

end Table

end SparqlTokens
