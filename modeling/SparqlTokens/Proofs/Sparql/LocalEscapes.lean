import SparqlTokens.Proofs.Sparql.Escapes
import SparqlTokens.Proofs.Sparql.PrefixedNames

/-! Escapes of local names in any text, not only in those that the rule accepts. A text is read by
units from left to right, a backslash with whatever stands behind it or a character by itself. The
decoder takes away the backslashes of the escapes and keeps everything else, but for a backslash
that has nothing behind it: that one goes too, where the decoder of strings refuses the text. -/
namespace SparqlTokens.Sparql

open Escape

/-- The character that a unit is about, without the backslash of an escape. -/
def BodyUnit.char : BodyUnit → Char
  | plain c | escaped c => c

/-- A unit that reading gives, whatever stands behind a backslash. -/
def BodyUnit.Read : BodyUnit → Prop
  | plain c => c ≠ '\\'
  | escaped _ => True

/-- A text by its units from left to right, and what they leave of it: nothing, or a backslash with
no character behind it. -/
structure ReadsAs (text : List Char) (units : List BodyUnit) (rest : List Char) : Prop where
  read : ∀ u ∈ units, u.Read
  dangling : rest = [] ∨ rest = ['\\']
  text : text = units.flatMap BodyUnit.text ++ rest

section Reading

variable {text r rest : List Char} {u v : BodyUnit} {us vs : List BodyUnit}

theorem readsAs_end (h : rest = [] ∨ rest = ['\\']) : ReadsAs rest [] rest :=
  ⟨List.forall_mem_nil _, h, rfl⟩

theorem readsAs_cons : ReadsAs (u.text ++ r) (u :: us) rest ↔ u.Read ∧ ReadsAs r us rest := by
  constructor
  · intro h
    obtain ⟨hu, hus⟩ := List.forall_mem_cons.mp h.read
    have htext := h.text
    rw [List.flatMap_cons, List.append_assoc] at htext
    exact ⟨hu, hus, h.dangling, List.append_cancel_left htext⟩
  · intro h
    obtain ⟨hu, h⟩ := h
    refine ⟨List.forall_mem_cons.mpr ⟨hu, h.read⟩, h.dangling, ?_⟩
    rw [List.flatMap_cons, List.append_assoc, ← h.text]

theorem ReadsAs.unfold (h : ReadsAs text (u :: us) rest) :
    ∃ r, text = u.text ++ r ∧ u.Read ∧ ReadsAs r us rest := by
  have htext := h.text
  rw [List.flatMap_cons, List.append_assoc] at htext
  rw [htext] at h
  exact ⟨_, htext, readsAs_cons.mp h⟩

theorem exists_reading (text : List Char) : ∃ us rest, ReadsAs text us rest := by
  fun_induction unescapeLocal text with
  | case1 => exact ⟨[], [], readsAs_end (Or.inl rfl)⟩
  | case2 => exact ⟨[], ['\\'], readsAs_end (Or.inr rfl)⟩
  | case3 c r ih =>
    obtain ⟨us, rest, h⟩ := ih
    have hread : (BodyUnit.escaped c).Read := trivial
    exact ⟨_, rest, readsAs_cons.mpr ⟨hread, h⟩⟩
  | case4 c r hlone hescape ih =>
    obtain ⟨us, rest, h⟩ := ih
    have hread : (BodyUnit.plain c).Read := by
      intro hc
      cases r with
      | nil => exact hlone hc rfl
      | cons d r => exact hescape d r hc rfl
    exact ⟨_, rest, readsAs_cons.mpr ⟨hread, h⟩⟩

theorem first_unit {r' : List Char} (hu : u.Read) (hv : v.Read) (h : u.text ++ r = v.text ++ r') :
    u = v ∧ r = r' := by
  cases u with
  | plain c =>
    cases v with
    | plain d =>
      cases h
      exact ⟨rfl, rfl⟩
    | escaped d => exact absurd (List.cons.inj h).1 hu
  | escaped c =>
    cases v with
    | plain d => exact absurd (List.cons.inj h).1.symm hv
    | escaped d =>
      cases h
      exact ⟨rfl, rfl⟩

theorem end_not_unit (hrest : rest = [] ∨ rest = ['\\']) (hu : u.Read) : rest ≠ u.text ++ r := by
  intro h
  cases u with
  | plain c =>
    rcases hrest with rfl | rfl
    · cases h
    · exact hu (List.cons.inj h).1.symm
  | escaped c =>
    rcases hrest with rfl | rfl
    · cases h
    · cases (List.cons.inj h).2

theorem reading_unique {rest' : List Char} (h : ReadsAs text us rest)
    (h' : ReadsAs text vs rest') : vs = us ∧ rest' = rest := by
  induction us generalizing text vs with
  | nil =>
    have htext : text = rest := h.text
    cases vs with
    | nil => exact ⟨rfl, h'.text.symm.trans htext⟩
    | cons v vs =>
      obtain ⟨r, hv, hread, _⟩ := h'.unfold
      exact absurd (htext.symm.trans hv) (end_not_unit h.dangling hread)
  | cons u us ih =>
    obtain ⟨r, hu, hread, hr⟩ := h.unfold
    cases vs with
    | nil =>
      have htext : text = rest' := h'.text
      exact absurd (htext.symm.trans hu) (end_not_unit h'.dangling hread)
    | cons v vs =>
      obtain ⟨r', hv, hread', hr'⟩ := h'.unfold
      obtain ⟨rfl, rfl⟩ := first_unit hread hread' (hu.symm.trans hv)
      obtain ⟨rfl, hrest⟩ := ih hr hr'
      exact ⟨rfl, hrest⟩

theorem unescapeLocal_units (hread : ∀ u ∈ us, u.Read) (r : List Char) :
    unescapeLocal (us.flatMap BodyUnit.text ++ r) = us.map BodyUnit.char ++ unescapeLocal r := by
  induction us with
  | nil => rfl
  | cons u us ih =>
    obtain ⟨hu, hus⟩ := List.forall_mem_cons.mp hread
    rw [List.flatMap_cons, List.append_assoc, List.map_cons, List.cons_append, ← ih hus]
    cases u with
    | plain c => exact unescapeLocal_char hu _
    | escaped c => rw [BodyUnit.text, List.cons_append, List.singleton_append, unescapeLocal]; rfl

/-- A string with a backslash at its end that nothing follows is refused, whatever stands before. -/
theorem unescapeString?_dangling (hread : ∀ u ∈ us, u.Read) :
    unescapeString? (us.flatMap BodyUnit.text ++ ['\\']) = none := by
  induction us with
  | nil => rfl
  | cons u us ih =>
    obtain ⟨hu, hus⟩ := List.forall_mem_cons.mp hread
    rw [List.flatMap_cons, List.append_assoc]
    cases u with
    | plain c =>
      rw [BodyUnit.text, writes_char hu, ih hus]
      rfl
    | escaped c =>
      rw [BodyUnit.text, List.cons_append, List.singleton_append, unescapeString?, ih hus]
      cases stringChar? c with
      | none => rfl
      | some d => rfl

end Reading

def lossless? (units : List BodyUnit) : List Char → Option (List Char)
  | [] => some (units.map BodyUnit.char)
  | _ => none

/-- Every text is read by units in one way. Decoded as a local name it is the characters of its
units, so exactly the backslashes of its escapes are gone. That loses nothing if and only if no
backslash is left over: one at the very end with nothing behind it goes too, as if it were not
there, while no string is decoded that ends so. -/
theorem local_escapes_removed (text : List Char) : ∃ us rest, ReadsAs text us rest ∧
    (∀ vs rest', ReadsAs text vs rest' → vs = us ∧ rest' = rest) ∧
    unescapeLocal text = us.map BodyUnit.char ∧
    (some (unescapeLocal text) = lossless? us rest ↔ rest = []) ∧
    (rest = ['\\'] → unescapeLocal text = unescapeLocal (us.flatMap BodyUnit.text) ∧
      unescapeString? text = none) := by
  obtain ⟨us, rest, h⟩ := exists_reading text
  have hdecoded : unescapeLocal text = us.map BodyUnit.char := by
    rw [h.text, unescapeLocal_units h.read]
    rcases h.dangling with rfl | rfl
    · exact List.append_nil _
    · exact List.append_nil _
  refine ⟨us, rest, h, fun vs rest' h' => reading_unique h h', hdecoded, ?_, ?_⟩
  · rw [hdecoded]
    rcases h.dangling with rfl | rfl
    · exact iff_of_true rfl rfl
    · exact iff_of_false (Option.some_ne_none _) (List.cons_ne_nil _ _)
  · rintro rfl
    refine ⟨?_, ?_⟩
    · have hwhole := unescapeLocal_units h.read []
      rw [List.append_nil, unescapeLocal, List.append_nil] at hwhole
      rw [hdecoded, hwhole]
    · rw [h.text]
      exact unescapeString?_dangling h.read

/-- An escaped backslash at the end is a pair, the third backslash of three is not. -/
theorem three_backslashes_read :
    ReadsAs ['\\', '\\', '\\'] [.escaped '\\'] ['\\'] ∧
      unescapeLocal ['\\', '\\', '\\'] = ['\\'] ∧
      unescapeString? ['\\', '\\', '\\'] = none := by
  have hread : (BodyUnit.escaped '\\').Read := trivial
  have hreading : ReadsAs ['\\', '\\', '\\'] [.escaped '\\'] ['\\'] :=
    readsAs_cons.mpr ⟨hread, readsAs_end (Or.inr rfl)⟩
  obtain ⟨us, rest, _, honly, hdecoded, _, hdangling⟩ := local_escapes_removed ['\\', '\\', '\\']
  obtain ⟨rfl, rfl⟩ := honly _ _ hreading
  exact ⟨hreading, hdecoded, (hdangling rfl).2⟩

/-- A backslash that no character follows is not refused: the text comes out shortened. -/
theorem dangling_backslash_dropped :
    ReadsAs ['a', '\\'] [.plain 'a'] ['\\'] ∧ lossless? [.plain 'a'] ['\\'] = none ∧
      unescapeLocal ['a', '\\'] = ['a'] := by
  have hread : (BodyUnit.plain 'a').Read := by
    intro h
    cases h
  exact ⟨readsAs_cons.mpr ⟨hread, readsAs_end (Or.inr rfl)⟩, rfl, rfl⟩

end SparqlTokens.Sparql
