import Mathlib.Logic.Function.Basic
import SparqlTokens.Proofs.Grammar.References

/-! Expanding every rule once. A search follows the references depth first. It marks the rules that
are being expanded, which are those of its path, and keeps the text of each rule it is done with. It
ends, and finds what expanding each definition by itself finds. -/
namespace SparqlTokens

open Template (Piece)
open Definition

namespace Resolver

inductive Mark where
  | unvisited
  | inProgress
  | done (text : List Char)

structure State where
  marks : String → Mark := fun _ => .unvisited
  /-- The rules being expanded, outermost first. -/
  path : List String := []

namespace State

def text (s : State) (rule : String) : List Char :=
  match s.marks rule with
  | .done text => text
  | _ => []

def enter (s : State) (rule : String) : State where
  marks := Function.update s.marks rule .inProgress
  path := s.path ++ [rule]

def leave (s : State) (rule : String) (text : List Char) : State where
  marks := Function.update s.marks rule (.done text)
  path := s.path.dropLast

end State

/-- An answer or a fault; or neither, if the search goes deeper than it may. -/
abbrev Search := ExceptT GrammarError Option

/-- The text of a piece of the template of `rule`, behind the text of the pieces before it. -/
def readPiece (definitions : List Definition) (resolve : Definition → State → Search State)
    (rule : String) (found : State × List Char) : Piece → Search (State × List Char)
  | .char c => pure (found.1, found.2 ++ [c])
  | .reference name =>
    match find? definitions (String.ofList name) with
    | none => throw (.undefinedReference rule (String.ofList name))
    | some e => do
      let s ← resolve e found.1
      return (s, found.2 ++ grouped (s.text e.name))

def resolveWith (definitions : List Definition) : ℕ → Definition → State → Search State
  | 0, _, _ => ExceptT.mk none
  | bound + 1, d, s =>
    match s.marks d.name with
    | .done _ => pure s
    | .inProgress => throw (.cycle (s.path.dropWhile (· ≠ d.name) ++ [d.name]))
    | .unvisited => do
      let (s, text) ← (Template.split d.template.toList).foldlM
        (readPiece definitions (resolveWith definitions bound) d.name) (s.enter d.name, [])
      return s.leave d.name text

/-- The texts of all rules. The search goes no deeper than there are rules. -/
def run (definitions : List Definition) : Search (List (List Char)) := do
  let s ← definitions.foldlM
    (fun s d => resolveWith definitions (definitions.length + 1) d s) {}
  return definitions.map fun d => s.text d.name

/-- A search finds an answer, in a state that fits it, or the same fault. -/
def Finds {α σ : Type} (fits : α → σ → Prop) : Except GrammarError α → Search σ → Prop
  | .ok a, search => ∃ s, search = ExceptT.mk (some (.ok s)) ∧ fits a s
  | .error e, search => search = ExceptT.mk (some (.error e))

theorem finds_bind {α β σ τ : Type} {x : Except GrammarError α} {f : α → Except GrammarError β}
    {search : Search σ} {next : σ → Search τ} {fits : α → σ → Prop} {fits' : β → τ → Prop}
    (h : Finds fits x search) (hnext : ∀ a s, fits a s → Finds fits' (f a) (next s)) :
    Finds fits' (x >>= f) (search >>= next) := by
  cases x with
  | error e =>
    have hsearch : search = ExceptT.mk (some (.error e)) := h
    rw [hsearch]
    rfl
  | ok a =>
    obtain ⟨s, hsearch, hs⟩ := h
    rw [hsearch]
    exact hnext a s hs

theorem finds_sound {definitions : List Definition} {α σ : Type} {x : Except GrammarError α}
    {search : Search σ} {right : α → Prop} {fits : α → σ → Prop} (hx : Sound definitions right x)
    (h : Finds fits x search) : Finds (fun a s => right a ∧ fits a s) x search := by
  cases x with
  | error e => exact h
  | ok a =>
    obtain ⟨s, hsearch, hs⟩ := h
    exact ⟨s, hsearch, hx, hs⟩

section Search

variable {definitions : List Definition}

/-- The rules in progress are those of the path, the kept texts are right, and a rule is done only
after all it refers to. -/
structure Consistent (definitions : List Definition) (s : State) : Prop where
  progress : ∀ rule, s.marks rule = .inProgress ↔ rule ∈ s.path
  texts : ∀ d ∈ definitions, ∀ text, s.marks d.name = .done text → Expands definitions d text
  behind : ∀ rule target text, s.marks rule = .done text → Refers definitions rule target →
    ∃ text', s.marks target = .done text'

/-- What the search does to a state: it comes back to the path, and keeps what is done. -/
structure Returns (definitions : List Definition) (s s' : State) : Prop where
  consistent : Consistent definitions s'
  path : s'.path = s.path
  kept : ∀ rule text, s.marks rule = .done text → s'.marks rule = .done text

theorem consistent_start : Consistent definitions {} where
  progress rule := by simp
  texts _ _ _ h := by cases h
  behind _ _ _ h := by cases h

section Steps

variable {s : State} {d : Definition}

theorem returns_refl (hs : Consistent definitions s) : Returns definitions s s :=
  ⟨hs, rfl, fun _ _ => id⟩

theorem returns_trans {s' s'' : State} (h : Returns definitions s s')
    (h' : Returns definitions s' s'') : Returns definitions s s'' :=
  ⟨h'.consistent, h'.path.trans h.path, fun rule text hdone => h'.kept rule text (h.kept _ _ hdone)⟩

theorem text_done {rule : String} {text : List Char} (h : s.marks rule = .done text) :
    s.text rule = text := by
  rw [State.text, h]

/-- All that a rule leads to is done before it, so it is not on the path. -/
theorem done_leads (hs : Consistent definitions s) {rule target : String} {text : List Char}
    (hdone : s.marks rule = .done text)
    (hleads : Relation.ReflTransGen (Refers definitions) rule target) :
    ∃ text', s.marks target = .done text' := by
  induction hleads with
  | refl => exact ⟨text, hdone⟩
  | tail _ href ih =>
    obtain ⟨text', h⟩ := ih
    exact hs.behind _ _ _ h href

theorem done_expands (hn : (definitions.map (·.name)).Nodup) (hs : Consistent definitions s)
    {bound : ℕ} (h : Entered definitions bound s.path d) {text : List Char}
    (hdone : s.marks d.name = .done text) : expandWith definitions bound s.path d = .ok text := by
  refine expandWith_expands hn h (hs.texts d h.mem text hdone) ?_
  intro rule hrule hleads
  obtain ⟨text', htarget⟩ := done_leads hs hdone hleads
  rw [(hs.progress rule).mpr hrule] at htarget
  cases htarget

theorem enter_consistent (hs : Consistent definitions s) (hnew : s.marks d.name = .unvisited) :
    Consistent definitions (s.enter d.name) where
  progress rule := by
    by_cases hrule : rule = d.name
    · simp [State.enter, hrule]
    · simp [State.enter, hrule, hs.progress rule]
  texts e he text hdone := by
    by_cases hrule : e.name = d.name
    · simp [State.enter, hrule] at hdone
    · simp only [State.enter, Function.update_of_ne hrule] at hdone
      exact hs.texts e he text hdone
  behind rule target text hdone href := by
    by_cases hrule : rule = d.name
    · simp [State.enter, hrule] at hdone
    · simp only [State.enter, Function.update_of_ne hrule] at hdone
      obtain ⟨text', htarget⟩ := hs.behind rule target text hdone href
      have hother : target ≠ d.name := by
        rintro rfl
        rw [hnew] at htarget
        cases htarget
      exact ⟨text', by simp only [State.enter, Function.update_of_ne hother, htarget]⟩

theorem leave_done {s' : State} {text : List Char} {rule : String} {text' : List Char}
    (hdone : s'.marks rule = .done text') :
    ∃ text'', (s'.leave d.name text).marks rule = .done text'' := by
  by_cases hrule : rule = d.name
  · exact ⟨text, by simp [State.leave, hrule]⟩
  · exact ⟨text', by simp only [State.leave, Function.update_of_ne hrule, hdone]⟩

theorem leave_path {s' : State} (h : Returns definitions (s.enter d.name) s') (text : List Char) :
    (s'.leave d.name text).path = s.path := by
  have hpath : s'.path = s.path ++ [d.name] := h.path
  rw [State.leave, hpath, List.dropLast_concat]

/-- A rule may be left when the search has come to all that it refers to. -/
theorem leave_consistent (hn : (definitions.map (·.name)).Nodup) (hd : d ∈ definitions)
    (hfresh : d.name ∉ s.path) {s' : State} (h : Returns definitions (s.enter d.name) s')
    {text : List Char} (htext : Expands definitions d text)
    (hrefers : ∀ target, Refers definitions d.name target →
      ∃ text', s'.marks target = .done text') :
    Consistent definitions (s'.leave d.name text) where
  progress rule := by
    have hpath : s'.path = s.path ++ [d.name] := h.path
    rw [leave_path h]
    by_cases hrule : rule = d.name
    · simp [State.leave, hrule, hfresh]
    · simp [State.leave, hrule, h.consistent.progress rule, hpath]
  texts e he text' hdone := by
    by_cases hrule : e.name = d.name
    · have hsame : e = d := List.inj_on_of_nodup_map hn he hd hrule
      simp only [State.leave, hrule, Function.update_self, Mark.done.injEq] at hdone
      rwa [hsame, ← hdone]
    · simp only [State.leave, Function.update_of_ne hrule] at hdone
      exact h.consistent.texts e he text' hdone
  behind rule target text' hdone href := by
    by_cases hrule : rule = d.name
    · obtain ⟨text'', htarget⟩ := hrefers target (hrule ▸ href)
      exact leave_done htarget
    · simp only [State.leave, Function.update_of_ne hrule] at hdone
      obtain ⟨text'', htarget⟩ := h.consistent.behind rule target text' hdone href
      exact leave_done htarget

theorem leave_returns (hn : (definitions.map (·.name)).Nodup) (hd : d ∈ definitions)
    (hs : Consistent definitions s) (hnew : s.marks d.name = .unvisited) {s' : State}
    (h : Returns definitions (s.enter d.name) s') {text : List Char}
    (htext : Expands definitions d text)
    (hrefers : ∀ target, Refers definitions d.name target →
      ∃ text', s'.marks target = .done text') :
    Returns definitions s (s'.leave d.name text) := by
  have hfresh : d.name ∉ s.path := by
    rw [← hs.progress, hnew]
    simp
  refine ⟨leave_consistent hn hd hfresh h htext hrefers, leave_path h text, ?_⟩
  intro rule text' hdone
  have hrule : rule ≠ d.name := by
    rintro rfl
    rw [hnew] at hdone
    cases hdone
  have hentered : (s.enter d.name).marks rule = .done text' := by
    simp only [State.enter, Function.update_of_ne hrule, hdone]
  simp only [State.leave, Function.update_of_ne hrule]
  exact h.kept rule text' hentered

end Steps

/-- What the search finds for a rule is what expanding finds on the path. -/
def Resolves (definitions : List Definition) (bound : ℕ) (d : Definition) (s : State)
    (search : Search State) : Prop :=
  Finds (fun text s' => Returns definitions s s' ∧ s'.marks d.name = .done text)
    (expandWith definitions bound s.path d) search

section Pieces

variable {bound : ℕ} {d : Definition} {resolve : Definition → State → Search State} {s : State}

/-- Pieces whose text was read from a state on, behind some other text. -/
structure Reads (definitions : List Definition) (s : State) (read : List Char) (pieces : List Piece)
    (text : List Char) (found : State × List Char) : Prop where
  returns : Returns definitions s found.1
  text : found.2 = read ++ text
  done : ∀ name, .reference name ∈ pieces →
    ∃ text', found.1.marks (String.ofList name) = .done text'

theorem readPiece_finds (hd : d ∈ definitions)
    (hresolve : ∀ e ∈ definitions, Refers definitions d.name e.name →
      Resolves definitions bound e s (resolve e s))
    (hs : Consistent definitions s) {p : Piece} (hp : p ∈ Template.split d.template.toList)
    (read : List Char) :
    Finds (Reads definitions s read [p]) (expandPiece definitions bound s.path d.name p)
      (readPiece definitions resolve d.name (s, read) p) := by
  cases p with
  | char c => exact ⟨(s, read ++ [c]), rfl, returns_refl hs, rfl, fun _ h => by simp at h⟩
  | reference name =>
    cases hfound : find? definitions (String.ofList name) with
    | none =>
      rw [expandPiece_undefined hfound, readPiece, hfound]
      rfl
    | some e =>
      obtain ⟨he, hname⟩ := find?_some hfound
      have href : Refers definitions d.name e.name :=
        ⟨d, hd, rfl, by rwa [hname, String.toList_ofList]⟩
      rw [expandPiece_reference hfound, readPiece, hfound]
      refine finds_bind (hresolve e he href) ?_
      rintro inner s' ⟨hreturns, hdone⟩
      refine ⟨(s', read ++ grouped inner), ?_, hreturns, rfl, ?_⟩
      · rw [← text_done hdone]
        rfl
      · intro name' hmem
        cases List.mem_singleton.mp hmem
        exact ⟨inner, hname ▸ hdone⟩

theorem readPieces_finds (hd : d ∈ definitions) {path : List String}
    (hresolve : ∀ e ∈ definitions, Refers definitions d.name e.name →
      ∀ s, Consistent definitions s → s.path = path → Resolves definitions bound e s (resolve e s))
    {pieces : List Piece} (hpieces : ∀ p ∈ pieces, p ∈ Template.split d.template.toList)
    (hs : Consistent definitions s) (hpath : s.path = path) (read : List Char) :
    Finds (Reads definitions s read pieces) (expandPieces definitions bound path d.name pieces)
      (pieces.foldlM (readPiece definitions resolve d.name) (s, read)) := by
  induction pieces generalizing s read with
  | nil => exact ⟨(s, read), rfl, returns_refl hs, (List.append_nil _).symm, fun _ h => by cases h⟩
  | cons p pieces ih =>
    obtain ⟨hp, hrest⟩ := List.forall_mem_cons.mp hpieces
    have hpiece := readPiece_finds hd (fun e he href => hresolve e he href s hs hpath) hs hp read
    rw [hpath] at hpiece
    rw [expandPieces_cons, List.foldlM_cons]
    refine finds_bind hpiece ?_
    rintro text ⟨s', read'⟩ hfirst
    have hpath' : s'.path = path := hfirst.returns.path.trans hpath
    rw [← bind_pure (pieces.foldlM _ _)]
    refine finds_bind (ih hrest hfirst.returns.consistent hpath' read') ?_
    intro more found hmore
    refine ⟨found, rfl, returns_trans hfirst.returns hmore.returns, ?_, ?_⟩
    · have hread : read' = read ++ text := hfirst.text
      rw [hmore.text, hread, List.append_assoc]
    · intro name hmem
      rcases List.mem_cons.mp hmem with hmem | hmem
      · obtain ⟨text', hdone⟩ := hfirst.done name (List.mem_singleton.mpr hmem)
        exact ⟨text', hmore.returns.kept _ _ hdone⟩
      · exact hmore.done name hmem

end Pieces

variable (hn : (definitions.map (·.name)).Nodup)
include hn

theorem resolveWith_finds {bound : ℕ} {d : Definition} {s : State} (hs : Consistent definitions s)
    (h : Entered definitions bound s.path d) :
    Resolves definitions bound d s (resolveWith definitions bound d s) := by
  induction bound generalizing d s with
  | zero => exact (entered_depth h).elim
  | succ bound ih =>
    unfold Resolves
    rw [resolveWith]
    cases hmark : s.marks d.name with
    | done text =>
      rw [done_expands hn hs h hmark]
      exact ⟨s, rfl, returns_refl hs, hmark⟩
    | inProgress =>
      rw [expandWith_repeated ((hs.progress d.name).mp hmark)]
      rfl
    | unvisited =>
      have hfresh : d.name ∉ s.path := by
        rw [← hs.progress, hmark]
        simp
      have hresolve : ∀ e ∈ definitions, Refers definitions d.name e.name →
          ∀ u, Consistent definitions u → u.path = s.path ++ [d.name] →
            Resolves definitions bound e u (resolveWith definitions bound e u) := by
        intro e he href u hu hpath
        exact ih hu (hpath ▸ entered_next h hfresh he href)
      have hpieces := readPieces_finds h.mem hresolve (fun _ => id) (enter_consistent hs hmark) rfl
        []
      have hsound := expandWith_sound h
      rw [expandWith_fresh hfresh] at hsound ⊢
      rw [← bind_pure (expandPieces _ _ _ _ _)]
      refine finds_bind (finds_sound hsound hpieces) ?_
      rintro text ⟨s', read⟩ ⟨htext, hreads⟩
      have hread : read = text := hreads.text
      subst hread
      refine ⟨s'.leave d.name read, rfl,
        leave_returns hn h.mem hs hmark hreads.returns htext ?_, ?_⟩
      · intro target href
        have hdone := hreads.done target.toList ((refers_iff hn h.mem).mp href)
        rwa [String.ofList_toList] at hdone
      · simp [State.leave]

theorem resolveAll_finds {ds : List Definition} (hds : ∀ d ∈ ds, d ∈ definitions) {s : State}
    (hs : Consistent definitions s) (hpath : s.path = []) :
    Finds (fun texts s' => Returns definitions s s' ∧ ds.map (fun d => s'.text d.name) = texts)
      (ds.mapM (expand definitions))
      (ds.foldlM (fun s d => resolveWith definitions (definitions.length + 1) d s) s) := by
  induction ds generalizing s with
  | nil => exact ⟨s, rfl, returns_refl hs, rfl⟩
  | cons d ds ih =>
    obtain ⟨hd, hrest⟩ := List.forall_mem_cons.mp hds
    have hfirst := resolveWith_finds hn hs (hpath.symm ▸ entered_alone hd)
    rw [Resolves, hpath] at hfirst
    rw [List.mapM_cons, List.foldlM_cons]
    refine finds_bind hfirst ?_
    rintro text s' ⟨hreturns, hdone⟩
    rw [← bind_pure (ds.foldlM _ _)]
    refine finds_bind (ih hrest hreturns.consistent (hreturns.path.trans hpath)) ?_
    rintro texts s'' ⟨hafter, hkept⟩
    refine ⟨s'', rfl, returns_trans hreturns hafter, ?_⟩
    rw [List.map_cons, hkept, text_done (hafter.kept _ _ hdone)]

/-- The search ends, and finds what expanding each definition by itself finds. -/
theorem run_expands :
    (run definitions).run = some (definitions.mapM (expand definitions)) := by
  have hall : ∀ d ∈ definitions, d ∈ definitions := fun _ => id
  have hfinds := resolveAll_finds hn hall consistent_start rfl
  have hrun : Finds (fun texts found => found = texts)
      (definitions.mapM (expand definitions) >>= pure) (run definitions) := by
    refine finds_bind hfinds ?_
    rintro texts s ⟨_, htexts⟩
    exact ⟨_, rfl, htexts⟩
  rw [bind_pure] at hrun
  cases hexpand : definitions.mapM (expand definitions) with
  | error e =>
    rw [hexpand] at hrun
    exact hrun
  | ok texts =>
    rw [hexpand] at hrun
    obtain ⟨_, hfound, rfl⟩ := hrun
    exact hfound

end Search

end Resolver

theorem Table.build_unresolved {definitions : List Definition} {e : GrammarError}
    (hn : (definitions.map (·.name)).Nodup)
    (h : definitions.mapM (expand definitions) = .error e) (priority : List String)
    (properties : Pattern.Properties) : build definitions priority properties = .error e := by
  have hfirst := firstRepeated?_nodup.mpr hn
  simp only [build, hfirst, h]
  rfl

/-- References between rules of different names are resolved exactly: the search for the texts of
all rules ends, it finds texts if and only if every reference names a rule and no rule leads back to
itself, and else a fault that is so, for which no table is built. -/
theorem references_resolved {definitions : List Definition}
    (hn : (definitions.map (·.name)).Nodup) :
    (Resolver.run definitions).run = some (definitions.mapM (expand definitions)) ∧
    ((∃ texts, definitions.mapM (expand definitions) = .ok texts) ↔
      Closed definitions ∧ Acyclic definitions) ∧
    ∀ e, definitions.mapM (expand definitions) = .error e →
      Faulty definitions e ∧
        ∀ priority properties, Table.build definitions priority properties = .error e :=
  ⟨Resolver.run_expands hn, expand_ok_iff hn,
    fun _ h => ⟨expand_error h, Table.build_unresolved hn h⟩⟩

/-- A cycle that a rule outside of it leads to, found before a reference to no rule. -/
theorem cycle_behind_rule :
    let definitions : List Definition :=
      [⟨"D", "\x7bA\x7d\x7bE\x7d"⟩, ⟨"A", "x\x7bB\x7d"⟩, ⟨"B", "y\x7bA\x7d"⟩]
    (definitions.map (·.name)).Nodup ∧ Cycle definitions ["A", "B", "A"] ∧
      (Resolver.run definitions).run = some (.error (.cycle ["A", "B", "A"])) ∧
      Table.build definitions [] = .error (.cycle ["A", "B", "A"]) := by
  intro definitions
  have hn : (definitions.map (·.name)).Nodup := by decide
  have hphase : definitions.mapM (expand definitions) = .error (.cycle ["A", "B", "A"]) := by
    decide +kernel
  obtain ⟨hrun, _, hfault⟩ := references_resolved hn
  obtain ⟨hcycle, hbuild⟩ := hfault _ hphase
  exact ⟨hn, hcycle, hrun.trans (congrArg some hphase), hbuild [] .standard⟩

end SparqlTokens
