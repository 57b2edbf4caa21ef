import Mathlib.Order.Nat
import SparqlTokens.Proofs.Grammar.Building
import SparqlTokens.Proofs.Pattern.Symbols

/-! Definitions with their names and templates written out as characters. Strings are compared and
taken apart through their bytes, which no proof should have to follow; written definitions expand
to the same texts, and what their texts describe can be found by evaluation. -/
namespace SparqlTokens

open Pattern (Properties Symbol Part Group Assembly depthLimit)

structure Written where
  name : List Char
  template : List Char
  deriving DecidableEq

namespace Written

def definition (w : Written) : Definition := ⟨String.ofList w.name, String.ofList w.template⟩

def find? (ws : List Written) (name : List Char) : Option Written := ws.find? (·.name = name)

/-- The expansion of `w`, as `Definition.expandWith` finds it; faults are not told apart. -/
def expandWith (ws : List Written) : ℕ → List (List Char) → Written → Option (List Char)
  | 0, _, _ => none
  | depth + 1, path, w =>
    if w.name ∈ path then none
    else do
      let texts ← (Template.split w.template).mapM fun
        | .char c => some [c]
        | .reference name => do
          let v ← find? ws name
          return Definition.grouped (← expandWith ws depth (path ++ [w.name]) v)
      return texts.flatten

def expand (ws : List Written) (w : Written) : Option (List Char) :=
  expandWith ws (ws.length + 1) [] w

theorem ofList_inj {l m : List Char} : String.ofList l = String.ofList m ↔ l = m := by
  constructor
  · intro h
    have := congrArg String.toList h
    rwa [String.toList_ofList, String.toList_ofList] at this
  · rintro rfl
    rfl

theorem find?_definition (ws : List Written) (name : List Char) :
    Definition.find? (ws.map definition) (String.ofList name) = (find? ws name).map definition := by
  induction ws with
  | nil => rfl
  | cons w ws ih =>
    have hname : (w.definition.name = String.ofList name) = (w.name = name) :=
      propext ofList_inj
    by_cases h : w.name = name
    · simp [Definition.find?, find?, hname, h]
    · simpa [Definition.find?, find?, hname, h] using ih

theorem expandWith_definition {ws : List Written} {depth : ℕ} {path : List (List Char)}
    {w : Written} {text : List Char} (h : expandWith ws depth path w = some text) :
    Definition.expandWith (ws.map definition) depth (path.map String.ofList) w.definition =
      .ok text := by
  induction depth generalizing path w text with
  | zero => cases h
  | succ depth ih =>
    have hpath : w.definition.name ∈ path.map String.ofList ↔ w.name ∈ path := by
      simp [definition, ofList_inj]
    simp only [expandWith] at h
    split at h
    · cases h
    · next hw =>
      obtain ⟨texts, htexts, hflat⟩ := Option.bind_eq_some_iff.mp h
      cases hflat
      rw [Definition.expandWith, if_neg (hpath.not.mpr hw)]
      refine bind_ok (mapM_ok_iff.mpr ?_)
      rw [definition, String.toList_ofList]
      refine (mapM_some_iff.mp htexts).imp ?_
      intro piece t ht
      cases piece with
      | char c => cases ht; rfl
      | reference name =>
        obtain ⟨v, hv, hexpand⟩ := Option.bind_eq_some_iff.mp ht
        obtain ⟨u, hu, hgroup⟩ := Option.bind_eq_some_iff.mp hexpand
        cases hgroup
        have hstep := ih hu
        rw [List.map_append, List.map_singleton] at hstep
        simp only [find?_definition, hv, Option.map_some, definition] at hstep ⊢
        exact bind_ok hstep

theorem expand_definition {ws : List Written} {w : Written} {text : List Char}
    (h : expand ws w = some text) :
    Definition.expand (ws.map definition) w.definition = .ok text := by
  rw [Definition.expand, List.length_map]
  exact expandWith_definition h

/-! Writing strings out: the characters of a string are found by unification. -/

theorem spell_nil : ([] : List Definition) = List.map definition [] := rfl

theorem spell_cons {name template n t} {ds : List Definition} {ws : List Written}
    (hn : name = String.ofList n) (ht : template = String.ofList t) (h : ds = ws.map definition) :
    (⟨name, template⟩ :: ds : List Definition) = (⟨n, t⟩ :: ws : List Written).map definition := by
  rw [hn, ht, h]
  rfl

theorem spell_append {s t : String} {l m : List Char} (hs : s = String.ofList l)
    (ht : t = String.ofList m) : s ++ t = String.ofList (l ++ m) := by
  rw [hs, ht, String.ofList_append]

/-- The part that some symbols put behind the start of the text, if they put just one there. -/
def partOf? (symbols : List Symbol) : Option Part :=
  match symbols.foldlM Assembly.step {} with
  | .ok ⟨⟨_, [], [p, ⟨.textStart, 0⟩]⟩, [], _, _⟩ => some p
  | _ => none

/-- Whether the text of a match at the start is read as one part with expression `e`. -/
def describes (properties : Properties) (ws : List Written) (w : Written) (e : Expression) : Bool :=
  match expand ws w with
  | none => false
  | some text =>
    match Symbol.readAll properties (Rule.leadingText text) with
    | .ok led => (partOf? led).any fun p => p.expression == e && decide (p.depth < depthLimit)
    | .error _ => false

end Written

/-- The expressions of matches are in normal form, and within the limit. -/
def Expression.isFinal (e : Expression) : Bool :=
  sequence [textStart, e] == e.led && sequence [textStart, e, textEnd] == e.enclosed &&
    e.led.isWithinLimit && e.enclosed.isWithinLimit

namespace Written

theorem partOf?_some {symbols : List Symbol} {p : Part} (h : partOf? symbols = some p) :
    ∃ number numbered names, symbols.foldlM Assembly.step {} =
      .ok ⟨⟨number, [], [p, ⟨.textStart, 0⟩]⟩, [], numbered, names⟩ := by
  unfold partOf? at h
  split at h
  · next number p numbered names heq => cases h; exact ⟨number, numbered, names, heq⟩
  · cases h

theorem ofSymbols_parts {symbols : List Symbol} {number : Option ℕ} {ps : List Part} {numbered : ℕ}
    {names : List (List Char)}
    (h : symbols.foldlM Assembly.step {} = .ok ⟨⟨number, [], ps⟩, [], numbered, names⟩)
    (hd : (Part.joined .sequence ps.reverse).depth ≤ depthLimit) :
    Expression.ofSymbols symbols = .ok (Part.joined .sequence ps.reverse).expression := by
  have hall : Group.all ⟨number, [], ps⟩ = Part.joined .sequence ps.reverse := rfl
  unfold Expression.ofSymbols
  rw [bind_ok h, Assembly.finish, hall, if_neg (by simp), if_neg (not_lt.mpr hd)]

variable {properties : Properties} {symbols : List Symbol} {p : Part}

theorem ofSymbols_led (h : partOf? symbols = some p) (hp : p.depth < depthLimit) :
    Expression.ofSymbols symbols = .ok (.sequence [.textStart, p.expression]) := by
  obtain ⟨number, numbered, names, ha⟩ := partOf?_some h
  apply ofSymbols_parts ha
  simp only [Part.joined, List.reverse_cons, List.reverse_nil, List.nil_append, List.cons_append,
    List.map_cons, List.map_nil, List.foldl_cons, List.foldl_nil]
  omega

theorem ofSymbols_enclosed (h : partOf? symbols = some p) (hp : p.depth < depthLimit) :
    Expression.ofSymbols (symbols ++ [Symbol.textEnd]) =
      .ok (.sequence [.textStart, p.expression, .textEnd]) := by
  obtain ⟨number, numbered, names, ha⟩ := partOf?_some h
  have hend : (symbols ++ [Symbol.textEnd]).foldlM Assembly.step {} =
      .ok ⟨⟨number, [], [⟨.textEnd, 0⟩, p, ⟨.textStart, 0⟩]⟩, [], numbered, names⟩ := by
    rw [List.foldlM_append]
    exact bind_ok ha
  apply ofSymbols_parts hend
  simp only [Part.joined, List.reverse_cons, List.reverse_nil, List.nil_append, List.cons_append,
    List.map_cons, List.map_nil, List.foldl_cons, List.foldl_nil]
  omega

theorem parse_ok {text : List Char} {e : Expression}
    (hs : Symbol.readAll properties text = .ok symbols)
    (he : Expression.ofSymbols symbols = .ok e) (hl : e.isWithinLimit = true) :
    Expression.parse properties text = .ok e := by
  unfold Expression.parse
  rw [bind_ok hs, bind_ok he, if_pos hl]
  rfl

theorem describes_definition {ws : List Written} {w : Written} {e : Expression}
    (h : describes properties ws w e = true) (he : e.isFinal = true) :
    Definition.Describes properties (ws.map definition) w.definition e := by
  simp only [Expression.isFinal, Bool.and_eq_true, beq_iff_eq] at he
  obtain ⟨⟨⟨hled, henclosed⟩, hlimit⟩, hlimit'⟩ := he
  unfold describes at h
  split at h
  · cases h
  · next text htext =>
    split at h
    · next led hread =>
      obtain ⟨p, hp, hdescribes⟩ := (Option.any_eq_true _ _).mp h
      obtain ⟨hexpression, hdepth⟩ := Bool.and_eq_true_iff.mp hdescribes
      have hexpression : p.expression = e := eq_of_beq hexpression
      have hdepth : p.depth < depthLimit := of_decide_eq_true hdepth
      subst hexpression
      -- the text of a match of a whole text only has the end behind it
      have hread' : Symbol.readAll properties (Rule.wholeText text) =
          .ok (led ++ [Symbol.textEnd]) :=
        Symbol.readAll_append (by decide) hread rfl
      refine ⟨text, expand_definition htext, ?_, ?_⟩
      · apply parse_ok hread _ hlimit
        rw [ofSymbols_led hp hdepth, hled]
      · apply parse_ok hread' _ hlimit'
        rw [ofSymbols_enclosed hp hdepth, henclosed]
    · cases h

end Written

end SparqlTokens
