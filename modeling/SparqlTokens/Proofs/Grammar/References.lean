import Mathlib.Data.List.Chain
import Mathlib.Data.List.TakeWhile
import Mathlib.Data.List.Perm.Subperm
import Mathlib.Logic.Relation
import SparqlTokens.Proofs.Grammar.Building

/-! References between rules. A definition can be expanded if and only if all rules it leads to are
defined and none leads back to itself; what is found in place of a text is a reference to a name
without a rule, or the rules of a cycle. -/
namespace SparqlTokens

open Template (Piece)

namespace Definition

section Graph

variable (definitions : List Definition)

/-- A template of the first rule refers to the second. -/
def Refers (rule target : String) : Prop :=
  ∃ d ∈ definitions, d.name = rule ∧ .reference target.toList ∈ Template.split d.template.toList

def IsDefined (rule : String) : Prop := rule ∈ definitions.map (·.name)

def Closed : Prop := ∀ rule target, Refers definitions rule target → IsDefined definitions target

def Acyclic : Prop := ∀ rule, ¬ Relation.TransGen (Refers definitions) rule rule

/-- Each rule refers to the next; the last is the first again, and the others are all different. -/
def Cycle (rules : List String) : Prop :=
  ∃ first more, rules = first :: more ++ [first] ∧ (first :: more).Nodup ∧
    rules.IsChain (Refers definitions)

/-- What a fault says of the references between rules is so. -/
def Faulty : GrammarError → Prop
  | .undefinedReference rule target =>
    Refers definitions rule target ∧ ¬ IsDefined definitions target
  | .cycle rules => Cycle definitions rules
  | _ => False

/-- A text comes of pieces by plain substitution: each reference is replaced by the text of the rule
it names, as a group, and all else stays as it is. -/
inductive Substituted : List Piece → List Char → Prop
  | nil : Substituted [] []
  | char {c pieces text} : Substituted pieces text → Substituted (.char c :: pieces) (c :: text)
  | reference {name pieces e inner text} : find? definitions (String.ofList name) = some e →
      Substituted (Template.split e.template.toList) inner → Substituted pieces text →
      Substituted (.reference name :: pieces) (grouped inner ++ text)

def Expands (d : Definition) (text : List Char) : Prop :=
  Substituted definitions (Template.split d.template.toList) text

/-- What `expandWith` makes of a piece of the template of `rule`, the last of `path`. -/
def expandPiece (depth : ℕ) (path : List String) (rule : String) :
    Piece → Except GrammarError (List Char)
  | .char c => .ok [c]
  | .reference name =>
    match find? definitions (String.ofList name) with
    | none => .error (.undefinedReference rule (String.ofList name))
    | some e => do return grouped (← expandWith definitions depth path e)

def expandPieces (depth : ℕ) (path : List String) (rule : String) (pieces : List Piece) :
    Except GrammarError (List Char) := do
  return (← pieces.mapM (expandPiece definitions depth path rule)).flatten

end Graph

variable {definitions : List Definition}

theorem find?_some {name : String} {d : Definition} (h : find? definitions name = some d) :
    d ∈ definitions ∧ d.name = name :=
  find?_keyed h

theorem find?_none {name : String} (h : find? definitions name = none) :
    ¬ IsDefined definitions name := by
  intro hdefined
  obtain ⟨d, hd, hname⟩ := List.mem_map.mp hdefined
  exact List.find?_eq_none.mp h d hd (decide_eq_true hname)

theorem find?_of_mem (hn : (definitions.map (·.name)).Nodup) {d : Definition}
    (hd : d ∈ definitions) : find? definitions d.name = some d := (find?_iff hn).mpr ⟨hd, rfl⟩

/-! Plain substitution -/

theorem substituted_unique {pieces : List Piece} {text other : List Char}
    (h : Substituted definitions pieces text) (h' : Substituted definitions pieces other) :
    text = other := by
  induction h generalizing other with
  | nil =>
    cases h'
    rfl
  | char _ ih =>
    cases h' with
    | char h' => rw [ih h']
  | reference hfound _ _ ihinner ih =>
    cases h' with
    | reference hfound' hinner' h' =>
      rw [hfound, Option.some.injEq] at hfound'
      subst hfound'
      rw [ihinner hinner', ih h']

theorem substituted_reference {pieces : List Piece} {text name : List Char}
    (h : Substituted definitions pieces text) (hname : .reference name ∈ pieces) :
    ∃ e inner, find? definitions (String.ofList name) = some e ∧ Expands definitions e inner ∧
      inner.length < text.length := by
  induction h with
  | nil => cases hname
  | char _ ih =>
    have hrest := (List.mem_cons.mp hname).resolve_left (by simp)
    obtain ⟨e, inner, hfound, hinner, hlt⟩ := ih hrest
    exact ⟨e, inner, hfound, hinner, hlt.trans (Nat.lt_succ_self _)⟩
  | @reference name' pieces e inner text hfound hinner _ _ ih =>
    have hsum : (grouped inner ++ text).length = inner.length + 4 + text.length := by
      rw [List.length_append]
      simp only [grouped, List.length_append, List.length_cons, List.length_nil]
    rw [hsum]
    rcases List.mem_cons.mp hname with heq | hrest
    · cases heq
      exact ⟨e, inner, hfound, hinner, by omega⟩
    · obtain ⟨f, inner', hfound', hinner', hlt⟩ := ih hrest
      exact ⟨f, inner', hfound', hinner', by omega⟩

section Distinct

variable (hn : (definitions.map (·.name)).Nodup)
include hn

theorem refers_iff {d : Definition} (hd : d ∈ definitions) {target : String} :
    Refers definitions d.name target ↔
      .reference target.toList ∈ Template.split d.template.toList := by
  constructor
  · rintro ⟨e, he, hname, href⟩
    rwa [List.inj_on_of_nodup_map hn he hd hname] at href
  · intro href
    exact ⟨d, hd, rfl, href⟩

theorem expands_refers {d : Definition} {text : List Char} {target : String}
    (hd : d ∈ definitions) (h : Expands definitions d text)
    (href : Refers definitions d.name target) :
    ∃ e inner, find? definitions target = some e ∧ Expands definitions e inner ∧
      inner.length < text.length := by
  have hpiece := substituted_reference h ((refers_iff hn hd).mp href)
  rwa [String.ofList_toList] at hpiece

theorem expands_leads {d : Definition} {text : List Char} {target : String}
    (hd : d ∈ definitions) (h : Expands definitions d text)
    (hleads : Relation.TransGen (Refers definitions) d.name target) :
    ∃ e inner, find? definitions target = some e ∧ Expands definitions e inner ∧
      inner.length < text.length := by
  induction hleads with
  | single href => exact expands_refers hn hd h href
  | tail _ href ih =>
    obtain ⟨e, inner, hfound, hinner, hlt⟩ := ih
    obtain ⟨he, hname⟩ := find?_some hfound
    obtain ⟨f, inner', hfound', hinner', hlt'⟩ := expands_refers hn he hinner (hname ▸ href)
    exact ⟨f, inner', hfound', hinner', hlt'.trans hlt⟩

theorem expands_acyclic {d : Definition} {text : List Char} (hd : d ∈ definitions)
    (h : Expands definitions d text) :
    ¬ Relation.TransGen (Refers definitions) d.name d.name := by
  intro hleads
  obtain ⟨e, inner, hfound, hinner, hlt⟩ := expands_leads hn hd h hleads
  rw [find?_of_mem hn hd, Option.some.injEq] at hfound
  subst hfound
  rw [substituted_unique hinner h] at hlt
  exact lt_irrefl _ hlt

end Distinct

/-! Expanding -/

section Pieces

variable {depth : ℕ} {path : List String} {rule : String}

theorem expandPieces_cons (p : Piece) (pieces : List Piece) :
    expandPieces definitions depth path rule (p :: pieces) =
      expandPiece definitions depth path rule p >>= fun text =>
        expandPieces definitions depth path rule pieces >>= fun more => .ok (text ++ more) := by
  rw [expandPieces, expandPieces, List.mapM_cons]
  cases expandPiece definitions depth path rule p with
  | error e => rfl
  | ok text =>
    cases pieces.mapM (expandPiece definitions depth path rule) with
    | error e => rfl
    | ok texts => rfl

theorem expandPiece_undefined {name : List Char}
    (h : find? definitions (String.ofList name) = none) :
    expandPiece definitions depth path rule (.reference name) =
      .error (.undefinedReference rule (String.ofList name)) := by
  rw [expandPiece, h]

theorem expandPiece_reference {name : List Char} {e : Definition}
    (h : find? definitions (String.ofList name) = some e) :
    expandPiece definitions depth path rule (.reference name) =
      expandWith definitions depth path e >>= fun inner => .ok (grouped inner) := by
  rw [expandPiece, h]
  rfl

end Pieces

theorem expandWith_fresh {depth : ℕ} {path : List String} {d : Definition} (h : d.name ∉ path) :
    expandWith definitions (depth + 1) path d = expandPieces definitions depth (path ++ [d.name])
      d.name (Template.split d.template.toList) := by
  rw [expandWith, if_neg h]
  rfl

theorem expandWith_repeated {depth : ℕ} {path : List String} {d : Definition} (h : d.name ∈ path) :
    expandWith definitions (depth + 1) path d =
      .error (.cycle (path.dropWhile (· ≠ d.name) ++ [d.name])) := by
  rw [expandWith, if_pos h]

/-- What holds when `d` is entered from the rules of a path: they are different, and each refers to
the next. The depth leaves room for the rules that are not on the path. -/
structure Entered (definitions : List Definition) (depth : ℕ) (path : List String)
    (d : Definition) : Prop where
  mem : d ∈ definitions
  defined : ∀ rule ∈ path, IsDefined definitions rule
  distinct : path.Nodup
  chain : (path ++ [d.name]).IsChain (Refers definitions)
  room : definitions.length < depth + path.length

section Entered

variable {depth : ℕ} {path : List String} {d : Definition}

theorem entered_alone (hd : d ∈ definitions) :
    Entered definitions (definitions.length + 1) [] d where
  mem := hd
  defined := by simp
  distinct := List.nodup_nil
  chain := .singleton _
  room := by simp

theorem entered_depth (h : Entered definitions 0 path d) : False := by
  have hle := (List.Nodup.subperm h.distinct h.defined).length_le
  have hroom := h.room
  rw [List.length_map] at hle
  omega

theorem entered_next (h : Entered definitions (depth + 1) path d) (hfresh : d.name ∉ path)
    {e : Definition} (he : e ∈ definitions) (href : Refers definitions d.name e.name) :
    Entered definitions depth (path ++ [d.name]) e where
  mem := he
  defined := by
    intro rule hrule
    rcases List.mem_append.mp hrule with hrule | hrule
    · exact h.defined rule hrule
    · rw [List.mem_singleton.mp hrule]
      exact List.mem_map_of_mem h.mem
  distinct := by
    rw [← List.concat_eq_append]
    exact h.distinct.concat hfresh
  chain := by
    refine h.chain.append (.singleton _) ?_
    simpa using href
  room := by
    have hroom := h.room
    rw [List.length_append, List.length_singleton]
    omega

/-- The rules of the path from a repeated one on are a cycle. -/
theorem entered_cycle (h : Entered definitions depth path d) (hrepeated : d.name ∈ path) :
    Cycle definitions (path.dropWhile (· ≠ d.name) ++ [d.name]) := by
  obtain ⟨before, hsplit⟩ := List.dropWhile_suffix (l := path) (· ≠ d.name)
  cases htail : path.dropWhile (· ≠ d.name) with
  | nil =>
    have hall := List.dropWhile_eq_nil_iff.mp htail d.name hrepeated
    simp at hall
  | cons first more =>
    have hfirst : first = d.name := by
      have hhead := List.head?_dropWhile_not (· ≠ d.name) path
      rw [htail] at hhead
      simpa using hhead
    rw [htail] at hsplit
    subst hfirst
    have hdistinct : (before ++ d.name :: more).Nodup := hsplit ▸ h.distinct
    have hchain : (before ++ (d.name :: more ++ [d.name])).IsChain (Refers definitions) := by
      rw [← List.append_assoc, hsplit]
      exact h.chain
    exact ⟨d.name, more, rfl, (List.nodup_append.mp hdistinct).2.1, hchain.right_of_append⟩

/-- What comes of expanding fits, or it is a fault that is so. -/
def Sound (definitions : List Definition) {α : Type} (fits : α → Prop) :
    Except GrammarError α → Prop
  | .ok a => fits a
  | .error e => Faulty definitions e

theorem sound_bind {α β : Type} {x : Except GrammarError α} {f : α → Except GrammarError β}
    {fits : α → Prop} {fits' : β → Prop} (h : Sound definitions fits x)
    (hnext : ∀ a, fits a → Sound definitions fits' (f a)) : Sound definitions fits' (x >>= f) := by
  cases x with
  | error e => exact h
  | ok a => exact hnext a h

theorem sound_pieces (hd : d ∈ definitions)
    (hrefers : ∀ e ∈ definitions, Refers definitions d.name e.name →
      Sound definitions (Expands definitions e) (expandWith definitions depth path e))
    {pieces : List Piece} (hpieces : ∀ p ∈ pieces, p ∈ Template.split d.template.toList) :
    Sound definitions (Substituted definitions pieces)
      (expandPieces definitions depth path d.name pieces) := by
  induction pieces with
  | nil => exact .nil
  | cons p pieces ih =>
    obtain ⟨hp, hrest⟩ := List.forall_mem_cons.mp hpieces
    -- the text of a piece may stand before any text of the pieces behind it
    have hpiece : Sound definitions (fun text => ∀ more, Substituted definitions pieces more →
        Substituted definitions (p :: pieces) (text ++ more))
        (expandPiece definitions depth path d.name p) := by
      cases p with
      | char c => exact fun more => .char
      | reference name =>
        have href : Refers definitions d.name (String.ofList name) :=
          ⟨d, hd, rfl, by rwa [String.toList_ofList]⟩
        cases hfound : find? definitions (String.ofList name) with
        | none =>
          rw [expandPiece_undefined hfound]
          exact ⟨href, find?_none hfound⟩
        | some e =>
          obtain ⟨he, hname⟩ := find?_some hfound
          rw [expandPiece_reference hfound]
          exact sound_bind (hrefers e he (hname.symm ▸ href)) fun inner hinner more =>
            .reference hfound hinner
    rw [expandPieces_cons]
    exact sound_bind hpiece fun text htext => sound_bind (ih hrest) htext

theorem expandWith_sound (h : Entered definitions depth path d) :
    Sound definitions (Expands definitions d) (expandWith definitions depth path d) := by
  induction depth generalizing path d with
  | zero => exact (entered_depth h).elim
  | succ depth ih =>
    by_cases hrepeated : d.name ∈ path
    · rw [expandWith_repeated hrepeated]
      exact entered_cycle h hrepeated
    · rw [expandWith_fresh hrepeated]
      exact sound_pieces h.mem (fun e he href => ih (entered_next h hrepeated he href))
        fun _ => id

theorem pieces_expand {pieces : List Piece} {text : List Char}
    (h : Substituted definitions pieces text) (hd : d ∈ definitions)
    (hrefers : ∀ e inner, e ∈ definitions → Refers definitions d.name e.name →
      Expands definitions e inner → expandWith definitions depth path e = .ok inner)
    (hpieces : ∀ p ∈ pieces, p ∈ Template.split d.template.toList) :
    expandPieces definitions depth path d.name pieces = .ok text := by
  induction h with
  | nil => rfl
  | char _ ih =>
    rw [expandPieces_cons, ih (List.forall_mem_cons.mp hpieces).2]
    rfl
  | @reference name pieces e inner text hfound hinner _ _ ih =>
    obtain ⟨hp, hrest⟩ := List.forall_mem_cons.mp hpieces
    obtain ⟨he, hname⟩ := find?_some hfound
    have href : Refers definitions d.name e.name :=
      ⟨d, hd, rfl, by rwa [hname, String.toList_ofList]⟩
    rw [expandPieces_cons, expandPiece_reference hfound, bind_ok (hrefers e inner he href hinner),
      bind_ok rfl, bind_ok (ih hrest)]

/-- Plain substitution does not ask for the path: what leads to no rule of a path expands behind it
as it does alone. -/
theorem expandWith_expands (hn : (definitions.map (·.name)).Nodup) {text : List Char}
    (h : Entered definitions depth path d) (htext : Expands definitions d text)
    (hoff : ∀ rule ∈ path, ¬ Relation.ReflTransGen (Refers definitions) d.name rule) :
    expandWith definitions depth path d = .ok text := by
  induction depth generalizing path d text with
  | zero => exact (entered_depth h).elim
  | succ depth ih =>
    have hfresh : d.name ∉ path := fun hmem => hoff _ hmem .refl
    rw [expandWith_fresh hfresh]
    refine pieces_expand htext h.mem ?_ fun _ => id
    intro e inner he href hinner
    refine ih (entered_next h hfresh he href) hinner ?_
    intro rule hrule hleads
    rcases List.mem_append.mp hrule with hrule | hrule
    · exact hoff rule hrule (.head href hleads)
    · rw [List.mem_singleton.mp hrule] at hleads
      exact expands_acyclic hn h.mem htext (.head' href hleads)

end Entered

/-! All definitions -/

theorem cycle_leads {rules : List String} (h : Cycle definitions rules) :
    ∃ rule, Relation.TransGen (Refers definitions) rule rule := by
  obtain ⟨first, more, rfl, _, hchain⟩ := h
  refine ⟨first, ?_⟩
  cases hrest : more ++ [first] with
  | nil => simp at hrest
  | cons second rest =>
    rw [List.cons_append, hrest, List.isChain_cons_cons] at hchain
    refine .head' hchain.1 (List.relationReflTransGen_of_exists_isChain_cons rest hchain.2 ?_)
    have hlast : (more ++ [first]).getLast? = some first := by simp
    rw [hrest, List.getLast?_eq_some_getLast (List.cons_ne_nil _ _), Option.some.injEq] at hlast
    exact hlast

theorem expand_sound {d : Definition} (hd : d ∈ definitions) :
    Sound definitions (Expands definitions d) (expand definitions d) :=
  expandWith_sound (entered_alone hd)

theorem expand_ok {d : Definition} {text : List Char} (hd : d ∈ definitions)
    (h : expand definitions d = .ok text) : Expands definitions d text := by
  have hsound := expand_sound hd
  rwa [h] at hsound

theorem expand_error {e : GrammarError} (h : definitions.mapM (expand definitions) = .error e) :
    Faulty definitions e := by
  obtain ⟨d, hd, hfault⟩ := mapM_error h
  have hsound := expand_sound hd
  rwa [hfault] at hsound

/-- The definitions can be expanded if and only if every reference names a rule, and no rule leads
back to itself. -/
theorem expand_ok_iff (hn : (definitions.map (·.name)).Nodup) :
    (∃ texts, definitions.mapM (expand definitions) = .ok texts) ↔
      Closed definitions ∧ Acyclic definitions := by
  constructor
  · rintro ⟨texts, htexts⟩
    have expands : ∀ d ∈ definitions, ∃ text, Expands definitions d text := by
      intro d hd
      obtain ⟨text, _, htext⟩ := exists_related (mapM_ok_iff.mp htexts) hd
      exact ⟨text, expand_ok hd htext⟩
    constructor
    · intro rule target href
      obtain ⟨d, hd, rfl, _⟩ := id href
      obtain ⟨text, htext⟩ := expands d hd
      obtain ⟨e, _, hfound, _⟩ := expands_refers hn hd htext href
      obtain ⟨he, hname⟩ := find?_some hfound
      exact hname ▸ List.mem_map_of_mem he
    · intro rule hleads
      obtain ⟨target, href, _⟩ := Relation.TransGen.head'_iff.mp hleads
      obtain ⟨d, hd, rfl, _⟩ := href
      obtain ⟨text, htext⟩ := expands d hd
      exact expands_acyclic hn hd htext hleads
  · rintro ⟨hclosed, hacyclic⟩
    cases hphase : definitions.mapM (expand definitions) with
    | ok texts => exact ⟨texts, rfl⟩
    | error e =>
      have hfaulty := expand_error hphase
      cases e with
      | undefinedReference rule target => exact absurd (hclosed _ _ hfaulty.1) hfaulty.2
      | cycle rules =>
        obtain ⟨rule, hleads⟩ := cycle_leads hfaulty
        exact absurd hleads (hacyclic rule)
      | definedTwice | undefinedPriority | repeatedPriority | invalidPattern => exact hfaulty.elim

end Definition

end SparqlTokens
