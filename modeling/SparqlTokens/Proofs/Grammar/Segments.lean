import Mathlib.Data.List.TakeWhile
import SparqlTokens.Grammar.Template

/-! Templates read by segments: a name in braces, or else a character of any kind with all behind it
up to the next opening brace. Whatever braces there are, the segments follow each other without a
gap to the end of the template, and no segment begins or ends within a name in braces. -/
namespace SparqlTokens.Template

inductive Segment where
  | literal (text : List Char)
  | reference (name : List Char)
  deriving DecidableEq

namespace Segment

def text : Segment → List Char
  | literal text => text
  | reference name => '{' :: name ++ ['}']

def pieces : Segment → List Piece
  | literal text => text.map .char
  | reference name => [.reference name]

end Segment

/-- A name in braces at the start of a text, with the text behind it. -/
def readReference? : List Char → Option (List Char × List Char)
  | '{' :: first :: r =>
    if isNameStart first then
      match r.dropWhile isNameChar with
      | '}' :: rest => some (first :: r.takeWhile isNameChar, rest)
      | _ => none
    else none
  | _ => none

def readSegment? (text : List Char) : Option (Segment × List Char) :=
  match readReference? text, text with
  | some (name, rest), _ => some (.reference name, rest)
  | none, [] => none
  | none, c :: r => some (.literal (c :: r.takeWhile (· ≠ '{')), r.dropWhile (· ≠ '{'))

/-- Segments as long as there is one, with the text left over. It is an error to read a segment and
not to get on. -/
def readSegments? (text : List Char) : Option (List Segment × List Char) :=
  match readSegment? text with
  | none => some ([], text)
  | some (s, rest) =>
    if rest.length < text.length then
      (readSegments? rest).map fun (more, left) => (s :: more, left)
    else none
termination_by text.length

def segments? (template : List Char) : Option (List Segment) :=
  (readSegments? template).bind fun (segments, left) => if left = [] then some segments else none

/-- A letter of ASCII or a low line, and then letters, digits and low lines. -/
def IsName (name : List Char) : Prop :=
  ∃ first more, name = first :: more ∧ isNameStart first = true ∧ ∀ c ∈ more, isNameChar c = true

/-- Behind `n` characters of a text there is a name in braces. -/
def Occurs (text : List Char) (n : ℕ) (name : List Char) : Prop :=
  IsName name ∧ ∃ before after,
    text = before ++ ('{' :: name ++ '}' :: after) ∧ before.length = n

/-- The references among segments, each with the number of characters before it, if there are `n`
before all of them. -/
def references (n : ℕ) : List Segment → List (ℕ × List Char)
  | [] => []
  | .literal text :: more => references (n + text.length) more
  | .reference name :: more => (n, name) :: references (n + (name.length + 2)) more

inductive Segmented : List Char → List Segment → Prop
  | nil : Segmented [] []
  | reference {name rest more} : IsName name → Segmented rest more →
      Segmented ('{' :: name ++ '}' :: rest) (.reference name :: more)
  | literal {c u rest more} : (∀ name, ¬ Occurs (c :: (u ++ rest)) 0 name) → '{' ∉ u →
      Segmented rest more → Segmented (c :: (u ++ rest)) (.literal (c :: u) :: more)

/-! Names in braces -/

section Names

variable {name text rest : List Char}

theorem nameStart_char {c : Char} (h : isNameStart c = true) : isNameChar c = true := by
  simp only [isNameStart, isNameChar, Char.isAlphanum, Bool.or_eq_true] at h ⊢
  exact h.imp_left Or.inl

theorem IsName.chars (h : IsName name) : ∀ c ∈ name, isNameChar c = true := by
  obtain ⟨first, more, rfl, hfirst, hmore⟩ := h
  exact List.forall_mem_cons.mpr ⟨nameStart_char hfirst, hmore⟩

theorem nameChars_end (h : ∀ c ∈ name, isNameChar c = true) (rest : List Char) :
    (name ++ '}' :: rest).takeWhile isNameChar = name ∧
      (name ++ '}' :: rest).dropWhile isNameChar = '}' :: rest := by
  have hbrace : ¬ isNameChar '}' = true := by decide
  rw [List.takeWhile_append_of_pos h, List.dropWhile_append_of_pos h,
    List.takeWhile_cons_of_neg hbrace, List.dropWhile_cons_of_neg hbrace]
  exact ⟨List.append_nil name, rfl⟩

theorem occurs_zero :
    Occurs text 0 name ↔ IsName name ∧ ∃ rest, text = '{' :: name ++ '}' :: rest := by
  constructor
  · rintro ⟨hname, before, rest, rfl, hlength⟩
    rw [List.length_eq_zero_iff.mp hlength]
    exact ⟨hname, rest, rfl⟩
  · rintro ⟨hname, rest, rfl⟩
    exact ⟨hname, [], rest, rfl, rfl⟩

theorem readReference?_iff :
    readReference? text = some (name, rest) ↔ IsName name ∧ text = '{' :: name ++ '}' :: rest := by
  constructor
  · intro h
    unfold readReference? at h
    split at h
    · next first r =>
      split at h
      · next hfirst =>
        split at h
        · next rest' hstop =>
          cases h
          refine ⟨⟨first, _, rfl, hfirst, fun c => List.mem_takeWhile_imp⟩, ?_⟩
          rw [List.cons_append, List.cons_append, ← hstop, List.takeWhile_append_dropWhile]
        · cases h
      · cases h
    · cases h
  · rintro ⟨hname, rfl⟩
    obtain ⟨first, more, rfl, hfirst, hmore⟩ := id hname
    obtain ⟨htake, hdrop⟩ := nameChars_end hmore rest
    simp only [readReference?, List.cons_append, hfirst, if_true, hdrop, htake]

theorem readReference?_none (h : readReference? text = none) (name : List Char) :
    ¬ Occurs text 0 name := by
  intro hoccurs
  obtain ⟨hname, rest, htext⟩ := occurs_zero.mp hoccurs
  rw [readReference?_iff.mpr ⟨hname, htext⟩] at h
  cases h

theorem referenceAt?_iff : referenceAt? text = some name ↔ Occurs text 0 name := by
  rw [occurs_zero]
  constructor
  · intro h
    unfold referenceAt? at h
    split at h
    · next r =>
      dsimp only at h
      split at h
      · next hends =>
        cases h
        obtain ⟨hhead, hbrace⟩ := Bool.and_eq_true_iff.mp hends
        obtain ⟨first, hfirst, hstart⟩ := (Option.any_eq_true _ _).mp hhead
        obtain ⟨more, hmore⟩ := List.head?_eq_some_iff.mp hfirst
        obtain ⟨rest, hrest⟩ := List.head?_eq_some_iff.mp (of_decide_eq_true hbrace)
        refine ⟨⟨first, more, hmore, hstart, ?_⟩, rest, ?_⟩
        · intro c hc
          exact List.mem_takeWhile_imp (hmore ▸ List.mem_cons_of_mem first hc)
        · have hprefix := List.prefix_iff_eq_append.mp (List.takeWhile_prefix isNameChar (l := r))
          rw [hrest] at hprefix
          rw [List.cons_append, hprefix]
      · cases h
    · cases h
  · rintro ⟨hname, rest, rfl⟩
    obtain ⟨first, more, hcons, hstart, _⟩ := id hname
    have hhead : name.head?.any isNameStart = true := by rw [hcons]; exact hstart
    simp [referenceAt?, (nameChars_end hname.chars rest).1, hhead]

/-! Where names in braces occur -/

variable {c : Char} {u : List Char} {n : ℕ}

theorem occurs_succ : Occurs (c :: text) (n + 1) name ↔ Occurs text n name := by
  refine and_congr_right fun _ => ⟨?_, ?_⟩
  · rintro ⟨before, after, htext, hlength⟩
    obtain ⟨d, before, rfl⟩ := List.exists_cons_of_length_eq_add_one hlength
    rw [List.cons_append, List.cons.injEq] at htext
    exact ⟨before, after, htext.2, Nat.succ.inj hlength⟩
  · rintro ⟨before, after, rfl, rfl⟩
    exact ⟨c :: before, after, rfl, rfl⟩

theorem occurs_brace (h : Occurs (c :: text) 0 name) : c = '{' := by
  obtain ⟨_, rest, htext⟩ := occurs_zero.mp h
  exact (List.cons.inj htext).1

theorem occurs_behind (hu : '{' ∉ u) :
    Occurs (u ++ text) n name ↔ ∃ m, n = u.length + m ∧ Occurs text m name := by
  induction u generalizing n with
  | nil => simp
  | cons c u ih =>
    obtain ⟨hc, hu⟩ := not_or.mp (List.mem_cons.not.mp hu)
    cases n with
    | zero =>
      constructor
      · exact fun h => absurd (occurs_brace h).symm hc
      · rintro ⟨m, hm, _⟩
        rw [List.length_cons] at hm
        omega
    | succ n =>
      rw [List.cons_append, occurs_succ, ih hu, List.length_cons]
      exact exists_congr fun m => and_congr_left fun _ => by omega

theorem occurs_literal (h : ∀ name, ¬ Occurs (c :: (u ++ rest)) 0 name) (hu : '{' ∉ u) :
    Occurs (c :: (u ++ rest)) n name ↔ ∃ m, n = (c :: u).length + m ∧ Occurs rest m name := by
  cases n with
  | zero =>
    constructor
    · exact fun hoccurs => absurd hoccurs (h name)
    · rintro ⟨m, hm, _⟩
      rw [List.length_cons] at hm
      omega
  | succ n =>
    rw [occurs_succ, occurs_behind hu, List.length_cons]
    exact exists_congr fun m => and_congr_left fun _ => by omega

theorem occurs_reference (hname : IsName name) {other : List Char} :
    Occurs ('{' :: name ++ '}' :: rest) n other ↔
      n = 0 ∧ other = name ∨ ∃ m, n = name.length + 2 + m ∧ Occurs rest m other := by
  cases n with
  | zero =>
    constructor
    · intro h
      obtain ⟨hother, rest', htext⟩ := occurs_zero.mp h
      have hbehind : name ++ '}' :: rest = other ++ '}' :: rest' := (List.cons.inj htext).2
      have hnames := congrArg (List.takeWhile isNameChar) hbehind
      rw [(nameChars_end hname.chars rest).1, (nameChars_end hother.chars rest').1] at hnames
      exact Or.inl ⟨rfl, hnames.symm⟩
    · rintro (⟨_, rfl⟩ | ⟨m, hm, _⟩)
      · exact occurs_zero.mpr ⟨hname, rest, rfl⟩
      · omega
  | succ n =>
    have hinner : '{' ∉ name ++ ['}'] := by
      intro hmem
      rcases List.mem_append.mp hmem with hmem | hmem
      · exact absurd (hname.chars _ hmem) (by decide)
      · exact absurd (List.mem_singleton.mp hmem) (by decide)
    have hbehind : Occurs (name ++ ['}'] ++ rest) n other ↔
        ∃ m, n = (name ++ ['}']).length + m ∧ Occurs rest m other := occurs_behind hinner
    rw [List.append_assoc, List.singleton_append, List.length_append] at hbehind
    rw [List.cons_append, occurs_succ, hbehind]
    constructor
    · rintro ⟨m, hm, hoccurs⟩
      exact Or.inr ⟨m, by rw [List.length_singleton] at hm; omega, hoccurs⟩
    · rintro (⟨hn, _⟩ | ⟨m, hm, hoccurs⟩)
      · omega
      · exact ⟨m, by rw [List.length_singleton]; omega, hoccurs⟩

/-! Pieces -/

theorem splitFrom_split (skip : ℕ) (text : List Char) :
    splitFrom skip text = split (text.drop skip) := by
  induction text generalizing skip with
  | nil => cases skip <;> rfl
  | cons c r ih =>
    cases skip with
    | zero => rfl
    | succ skip =>
      rw [splitFrom, ih]
      rfl

theorem split_char (h : ∀ name, ¬ Occurs (c :: text) 0 name) :
    split (c :: text) = .char c :: split text := by
  have hnone : referenceAt? (c :: text) = none := by
    cases href : referenceAt? (c :: text) with
    | none => rfl
    | some name => exact absurd (referenceAt?_iff.mp href) (h name)
  rw [split, splitFrom, hnone]
  rfl

theorem split_plain (hu : '{' ∉ u) : split (u ++ text) = u.map .char ++ split text := by
  induction u with
  | nil => rfl
  | cons c u ih =>
    obtain ⟨hc, hu⟩ := not_or.mp (List.mem_cons.not.mp hu)
    rw [List.cons_append, split_char fun name h => hc (occurs_brace h).symm, ih hu]
    rfl

theorem split_reference (hname : IsName name) :
    split ('{' :: name ++ '}' :: rest) = .reference name :: split rest := by
  have href : referenceAt? ('{' :: (name ++ '}' :: rest)) = some name :=
    referenceAt?_iff.mpr (occurs_zero.mpr ⟨hname, rest, rfl⟩)
  have hdrop : (name ++ '}' :: rest).drop (name.length + 1) = rest := by
    rw [List.append_cons, List.drop_left' (by simp)]
  rw [List.cons_append, split, splitFrom, href]
  dsimp only
  rw [splitFrom_split, hdrop]

end Names

/-! Segments one after the other -/

section Segmented

variable {text rest : List Char} {s : Segment} {segments : List Segment}

/-- A segment is not empty, and stands before the segments of what is behind it. -/
theorem readSegment?_some (h : readSegment? text = some (s, rest)) :
    rest.length < text.length ∧
      ∀ more, Segmented rest more → Segmented text (s :: more) := by
  unfold readSegment? at h
  split at h
  · next name rest' hread =>
    cases h
    obtain ⟨hname, rfl⟩ := readReference?_iff.mp hread
    exact ⟨by simp; omega, fun more => .reference hname⟩
  · cases h
  · next c r hread =>
    cases h
    have hsplit := List.takeWhile_append_dropWhile (p := (· ≠ '{')) (l := r)
    have hbrace : '{' ∉ r.takeWhile (· ≠ '{') := fun hmem =>
      absurd (List.mem_takeWhile_imp hmem) (by decide)
    refine ⟨Nat.lt_succ_of_le (List.dropWhile_suffix _).length_le, fun more hmore => ?_⟩
    have hnone := readReference?_none hread
    rw [← hsplit] at hnone
    have hliteral := Segmented.literal hnone hbrace hmore
    rwa [hsplit] at hliteral

theorem readSegment?_none (h : readSegment? text = none) : text = [] := by
  unfold readSegment? at h
  split at h
  · cases h
  · rfl
  · cases h

/-- Reading gets on with every segment, to the end of the text. -/
theorem readSegments?_segmented (text : List Char) :
    ∃ segments, readSegments? text = some (segments, []) ∧ Segmented text segments := by
  fun_induction readSegments? text with
  | case1 text hnone =>
    obtain rfl := readSegment?_none hnone
    exact ⟨[], rfl, .nil⟩
  | case2 text s rest hsome hlt ih =>
    obtain ⟨more, hmore, hsegmented⟩ := ih
    rw [hmore]
    exact ⟨s :: more, rfl, (readSegment?_some hsome).2 more hsegmented⟩
  | case3 text s rest hsome hnot => exact absurd (readSegment?_some hsome).1 hnot

theorem segmented_text (h : Segmented text segments) : segments.flatMap Segment.text = text := by
  induction h with
  | nil => rfl
  | reference _ _ ih => simp [Segment.text, ih]
  | literal _ _ _ ih => simp [Segment.text, ih]

theorem segmented_pieces (h : Segmented text segments) :
    segments.flatMap Segment.pieces = split text := by
  induction h with
  | nil => rfl
  | reference hname _ ih => rw [split_reference hname, List.flatMap_cons, ih]; rfl
  | literal hnone hplain _ ih =>
    rw [split_char hnone, split_plain hplain, List.flatMap_cons, ih]
    rfl

theorem mem_references (h : Segmented text segments) {k i : ℕ} {name : List Char} :
    (i, name) ∈ references k segments ↔ ∃ n, i = k + n ∧ Occurs text n name := by
  induction h generalizing k with
  | nil =>
    have hnone : ∀ n, ¬ Occurs [] n name := by
      rintro n ⟨_, before, after, hnil, _⟩
      simp at hnil
    simp [references, hnone]
  | @reference name' rest more hname _ ih =>
    rw [references, List.mem_cons, ih, Prod.mk.injEq]
    simp only [occurs_reference hname]
    constructor
    · rintro (⟨rfl, rfl⟩ | ⟨m, rfl, hoccurs⟩)
      · exact ⟨0, rfl, Or.inl ⟨rfl, rfl⟩⟩
      · exact ⟨name'.length + 2 + m, by omega, Or.inr ⟨m, rfl, hoccurs⟩⟩
    · rintro ⟨n, rfl, ⟨rfl, rfl⟩ | ⟨m, rfl, hoccurs⟩⟩
      · exact Or.inl ⟨rfl, rfl⟩
      · exact Or.inr ⟨m, by omega, hoccurs⟩
  | @literal c u rest more hnone hplain _ ih =>
    rw [references, ih]
    simp only [occurs_literal hnone hplain]
    constructor
    · rintro ⟨m, rfl, hoccurs⟩
      exact ⟨(c :: u).length + m, by omega, m, rfl, hoccurs⟩
    · rintro ⟨n, rfl, m, rfl, hoccurs⟩
      exact ⟨m, by omega, hoccurs⟩

end Segmented

theorem references_bound {k : ℕ} {segments : List Segment} {r : ℕ × List Char}
    (h : r ∈ references k segments) : k ≤ r.1 := by
  induction segments generalizing k with
  | nil => cases h
  | cons s more ih =>
    cases s with
    | literal text => exact (Nat.le_add_right _ _).trans (ih h)
    | reference name =>
      rcases List.mem_cons.mp h with rfl | h
      · exact le_rfl
      · exact (Nat.le_add_right _ _).trans (ih h)

theorem references_ascending (k : ℕ) (segments : List Segment) :
    (references k segments).Pairwise (·.1 < ·.1) := by
  induction segments generalizing k with
  | nil => exact .nil
  | cons s more ih =>
    cases s with
    | literal text => exact ih _
    | reference name =>
      refine .cons (fun r hr => ?_) (ih _)
      have hbound := references_bound hr
      dsimp only
      omega

/-- Every template is split. Its segments written out one after the other are the template; the
references among them are, from the left to the right, the names in braces that occur in it, and no
others; and letter by letter they are the pieces that are expanded. -/
theorem templates_split (template : List Char) :
    ∃ segments, segments? template = some segments ∧
      segments.flatMap Segment.text = template ∧
      (references 0 segments).Pairwise (·.1 < ·.1) ∧
      (∀ n name, (n, name) ∈ references 0 segments ↔ Occurs template n name) ∧
      split template = segments.flatMap Segment.pieces := by
  obtain ⟨segments, hread, hsegmented⟩ := readSegments?_segmented template
  refine ⟨segments, ?_, segmented_text hsegmented, references_ascending 0 segments, ?_,
    (segmented_pieces hsegmented).symm⟩
  · rw [segments?, hread]
    rfl
  · intro n name
    rw [mem_references hsegmented]
    simp

/-- A brace before a name in braces, and one that is not closed. -/
example : segments? ['{', '{', 'A', '}', '{', 'B'] =
    some [.literal ['{'], .reference ['A'], .literal ['{', 'B']] := by cbv

end SparqlTokens.Template
