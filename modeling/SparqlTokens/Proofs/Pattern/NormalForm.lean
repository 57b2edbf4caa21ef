import SparqlTokens.Proofs.Pattern.Languages

/-! What the normal form keeps. A row reads its parts one behind another, and a choice what one of
its alternatives does, however their parts are flattened, joined and moved in front; and sets and
counts stay in order. -/
namespace SparqlTokens

namespace CharSet

/-- The bounds of a set ascend, and none lies beyond the last character. -/
structure Proper (s : CharSet) : Prop where
  ascending : s.Ascending
  within : ∀ b ∈ s.bounds, b ≤ 0x10F800

theorem mem_behind {b x : ℕ} {bs : List ℕ} (h : x ∈ behind b bs) : x ∈ bs := by
  unfold behind at h
  split at h
  · exact List.mem_of_mem_tail h
  · exact h

theorem nextBound_mem {bs cs : List ℕ} {b : ℕ} (h : nextBound bs cs = some b) :
    b ∈ bs ∨ b ∈ cs := by
  cases bs with
  | nil =>
    cases cs with
    | nil => cases h
    | cons c cs => cases h; exact Or.inr List.mem_cons_self
  | cons a bs =>
    cases cs with
    | nil => cases h; exact Or.inl List.mem_cons_self
    | cons c cs =>
      cases h
      rcases min_choice a c with he | he
      · rw [he]
        exact Or.inl List.mem_cons_self
      · rw [he]
        exact Or.inr List.mem_cons_self

theorem mem_combineBounds {f : Bool → Bool → Bool} {bound : ℕ} {inS inT : Bool} {bs cs : List ℕ}
    {x : ℕ} (hx : x ∈ combineBounds f bound inS inT bs cs) : x ∈ bs ∨ x ∈ cs := by
  induction bound generalizing inS inT bs cs with
  | zero => cases hx
  | succ bound ih =>
    cases hnext : nextBound bs cs with
    | none => simp [combineBounds, hnext] at hx
    | some b =>
      rw [combineBounds_succ f bound inS inT bs cs hnext] at hx
      split at hx
      · exact (ih hx).imp mem_behind mem_behind
      · rcases List.mem_cons.mp hx with rfl | hx
        · exact nextBound_mem hnext
        · exact (ih hx).imp mem_behind mem_behind

theorem combine_proper (f : Bool → Bool → Bool) {s t : CharSet} (hs : s.Proper) (ht : t.Proper) :
    (combine f s t).Proper where
  ascending := combine_ascending hs.ascending ht.ascending
  within b hb := (mem_combineBounds hb).elim (hs.within b) (ht.within b)

theorem none_proper : none.Proper := ⟨List.Pairwise.nil, List.forall_mem_nil _⟩

theorem all_proper : all.Proper := ⟨by decide, by decide⟩

theorem compl_proper {s : CharSet} (hs : s.Proper) : s.compl.Proper :=
  combine_proper _ all_proper hs

theorem range_proper {lo hi : Char} (h : lo ≤ hi) : (range lo hi).Proper where
  ascending := range_ascending h
  within b hb := by
    have hlo := ordinal_lt lo
    have hhi := ordinal_lt hi
    simp only [range, List.mem_cons, List.not_mem_nil, or_false] at hb
    omega

theorem single_proper (c : Char) : (single c).Proper := range_proper (Char.le_refl c)

theorem mem_only {s : CharSet} (hs : s.Proper) {c : Char} (h : s.only? = some c) {d : Char} :
    d ∈ s ↔ d = c := by
  unfold only? at h
  split at h
  · next n m hbounds =>
    split at h
    · next hm =>
      cases h
      have hn : n + 1 ≤ 0x10F800 := hm ▸ hs.within m (by rw [hbounds]; simp)
      have hsingle : s.bounds = (single (Char.ofNat (codePoint n))).bounds := by
        rw [hbounds, hm]
        simp only [single, range, ordinal_ofNat (show n < 0x10F800 by omega)]
      rw [mem_iff, hsingle]
      exact mem_single
    · cases h
  · cases h

theorem union_all {sets : List CharSet} (hsets : ∀ s ∈ sets, s.Proper) {t : CharSet}
    (ht : t.Proper) : (sets.foldl union t).Proper ∧
      ∀ c, c ∈ sets.foldl union t ↔ c ∈ t ∨ ∃ s ∈ sets, c ∈ s := by
  induction sets generalizing t with
  | nil => exact ⟨ht, fun c => by simp⟩
  | cons s sets ih =>
    obtain ⟨hs, hrest⟩ := List.forall_mem_cons.mp hsets
    have hunion : (t.union s).Proper := combine_proper _ ht hs
    obtain ⟨hproper, hmem⟩ := ih hrest hunion
    refine ⟨hproper, fun c => ?_⟩
    rw [List.foldl_cons, hmem, mem_union ht.ascending hs.ascending]
    simp only [List.mem_cons, exists_eq_or_imp, or_assoc]

theorem ofRanges_spec (ranges : Pattern.Ranges) : (ofRanges ranges).Proper ∧
    ∀ c, c ∈ ofRanges ranges ↔ ranges.contains c = true := by
  have hsets : ∀ s ∈ (ranges.filter fun r => r.1 ≤ r.2).map fun r => range r.1 r.2, s.Proper := by
    intro s hs
    obtain ⟨r, hr, rfl⟩ := List.mem_map.mp hs
    exact range_proper (of_decide_eq_true (List.mem_filter.mp hr).2)
  obtain ⟨hproper, hmem⟩ := union_all hsets none_proper
  refine ⟨hproper, fun c => (hmem c).trans ?_⟩
  have hnone : c ∉ none := Bool.false_ne_true
  simp only [hnone, false_or, List.mem_map, List.mem_filter, decide_eq_true_eq,
    Pattern.Ranges.contains, List.any_eq_true, Bool.and_eq_true]
  constructor
  · rintro ⟨s, ⟨r, ⟨hr, _⟩, rfl⟩, hc⟩
    exact ⟨r, hr, mem_range.mp hc⟩
  · rintro ⟨r, hr, hlo, hhi⟩
    exact ⟨_, ⟨r, ⟨hr, Char.le_trans hlo hhi⟩, rfl⟩, mem_range.mpr ⟨hlo, hhi⟩⟩

end CharSet

namespace Expression

open Reading

/-- Sets are proper, and the bounds of repetitions are in order. -/
def Proper : Expression → Prop
  | set s => s.Proper
  | capture _ e => e.Proper
  | repeated least most _ e => (∀ m ∈ most, least ≤ m) ∧ e.Proper
  | cat e f | either e f => e.Proper ∧ f.Proper
  | empty | text _ | textStart | textEnd => True

theorem Proper.wellFormed {e : Expression} (h : e.Proper) : e.WellFormed := by
  induction e with
  | empty | text | textStart | textEnd => trivial
  | set s => exact h.ascending
  | capture _ e ih => exact ih h
  | repeated least most _ e ih => exact ⟨h.1, ih h.2⟩
  | cat e f he hf => exact ⟨he h.1, hf h.2⟩
  | either e f he hf => exact ⟨he h.1, hf h.2⟩

/-! Rows -/

/-- Some parts one behind another. -/
def readingRow (es : List Expression) : Reading :=
  es.foldr (fun e R => e.reading.andThen R) nothing

theorem readingRow_cons (e : Expression) (es : List Expression) :
    readingRow (e :: es) = e.reading.andThen (readingRow es) := rfl

theorem readingRow_append (es fs : List Expression) :
    readingRow (es ++ fs) = (readingRow es).andThen (readingRow fs) := by
  induction es with
  | nil => exact (nothing_andThen _).symm
  | cons e es ih => rw [List.cons_append, readingRow_cons, ih, readingRow_cons, andThen_assoc]

theorem readingRow_factors (e : Expression) : readingRow e.factors = e.reading :=
  (reading_factors e nothing).trans (andThen_nothing _)

theorem readingRow_flatMap (es : List Expression) :
    readingRow (es.flatMap factors) = readingRow es := by
  induction es with
  | nil => rfl
  | cons e es ih =>
    rw [List.flatMap_cons, readingRow_append, readingRow_factors, ih, readingRow_cons]

theorem word_andThen (cs ds : List Char) : (word cs).andThen (word ds) = word (cs ++ ds) := by
  apply Reading.ext
  intro b w rest
  constructor
  · rintro ⟨_, _, rfl, rfl, rfl⟩
    rfl
  · rintro rfl
    exact ⟨cs, ds, rfl, rfl, rfl⟩

theorem readingRow_prepend (e : Expression) (es : List Expression) :
    readingRow (prepend e es) = e.reading.andThen (readingRow es) := by
  cases es with
  | nil => rfl
  | cons f es =>
    dsimp only [prepend]
    split
    · next cs ds =>
      rw [readingRow_cons, readingRow_cons, ← andThen_assoc]
      exact congrArg (Reading.andThen · _) (word_andThen cs ds).symm
    · rfl

theorem readingRow_joined (es : List Expression) :
    readingRow (es.foldr prepend []) = readingRow es := by
  induction es with
  | nil => rfl
  | cons e es ih => rw [List.foldr_cons, readingRow_prepend, ih, readingRow_cons]

theorem reading_sequence (es : List Expression) : (sequence es).reading = readingRow es := by
  have hfactors : (sequence es).reading = readingRow ((es.flatMap factors).foldr prepend []) :=
    reading_ofFactors _
  rw [hfactors, readingRow_joined, readingRow_flatMap]

/-! Choices -/

/-- One of some alternatives. -/
def readingAny (es : List Expression) : Reading := fun b w rest => ∃ e ∈ es, e.reading b w rest

theorem readingAny_cons (e : Expression) (es : List Expression) :
    readingAny (e :: es) = e.reading.orElse (readingAny es) := by
  apply Reading.ext
  intro b w rest
  exact List.exists_mem_cons_iff _ _ _

theorem readingAny_singleton (e : Expression) : readingAny [e] = e.reading := by
  apply Reading.ext
  intro b w rest
  simp [readingAny]

theorem readingAny_append (es fs : List Expression) :
    readingAny (es ++ fs) = (readingAny es).orElse (readingAny fs) := by
  apply Reading.ext
  intro b w rest
  simp only [readingAny, List.mem_append, or_and_right, exists_or]
  rfl

theorem readingAny_branches (e : Expression) : readingAny e.branches = e.reading := by
  induction e with
  | either e f _ hf => rw [branches, readingAny_cons, hf, reading]
  | _ => exact readingAny_singleton _

theorem readingAny_flatMap (es : List Expression) :
    readingAny (es.flatMap branches) = readingAny es := by
  induction es with
  | nil => rfl
  | cons e es ih =>
    rw [List.flatMap_cons, readingAny_append, readingAny_branches, ih, readingAny_cons]

theorem reading_ofBranches (es : List Expression) : (ofBranches es).reading = readingAny es := by
  induction es with
  | nil =>
    apply Reading.ext
    intro b w rest
    constructor
    · rintro ⟨c, hc, _⟩
      cases hc
    · rintro ⟨e, he, _⟩
      cases he
  | cons e es ih =>
    cases es with
    | nil => exact (readingAny_singleton e).symm
    | cons f es =>
      have hsplit : ofBranches (e :: f :: es) = either e (ofBranches (f :: es)) := rfl
      rw [hsplit, reading, ih, readingAny_cons e]

theorem reading_ofSet {s : CharSet} (hs : s.Proper) : (ofSet s).reading = char s := by
  unfold ofSet
  split
  · next c hc =>
    apply Reading.ext
    intro b w rest
    simp only [reading, word, char, CharSet.mem_only hs hc, exists_eq_left]
  · rfl

theorem ofSet_proper {s : CharSet} (hs : s.Proper) : (ofSet s).Proper := by
  unfold ofSet
  split
  · trivial
  · exact hs

section Sets

variable {e : Expression} {s : CharSet}

theorem singles?_spec (h : e.singles? = some s) : s.Proper ∧ e.reading = char s := by
  unfold singles? at h
  split at h
  · next c =>
    cases h
    refine ⟨CharSet.single_proper c, ?_⟩
    apply Reading.ext
    intro b w rest
    simp only [reading, word, char, CharSet.mem_single, exists_eq_left]
  · cases h

theorem set?_spec (he : e.Proper) (h : e.set? = some s) : s.Proper ∧ e.reading = char s := by
  unfold set? at h
  split at h
  · cases h
    exact ⟨he, rfl⟩
  · cases h

end Sets

variable {es : List Expression}

theorem mapM_spec {α β : Type} {f : α → Option β} {P : α → β → Prop} {as : List α} {bs : List β}
    (h : as.mapM f = some bs) (hf : ∀ a ∈ as, ∀ b, f a = some b → P a b) :
    List.Forall₂ P as bs := by
  have hboth := mapM_some_iff.mp h
  induction hboth with
  | nil => exact .nil
  | cons hab hrest ih =>
    rw [List.forall_mem_cons] at hf
    exact .cons (hf.1 _ hab) (ih (mapM_some_iff.mpr hrest) hf.2)

/-- A choice among single characters is a set of them. -/
theorem sets_spec (hes : ∀ e ∈ es, e.Proper) {sets : List CharSet}
    (h : (es.mapM singles?).or (es.mapM set?) = some sets) :
    List.Forall₂ (fun e s => s.Proper ∧ e.reading = char s) es sets := by
  rcases Option.or_eq_some_iff.mp h with h | ⟨_, h⟩
  · exact mapM_spec h fun e _ s => singles?_spec
  · exact mapM_spec h fun e he s => set?_spec (hes e he)

theorem union_spec {sets : List CharSet}
    (h : List.Forall₂ (fun e s => s.Proper ∧ e.reading = char s) es sets) :
    (sets.foldl CharSet.union CharSet.none).Proper ∧
      char (sets.foldl CharSet.union CharSet.none) = readingAny es := by
  have hsets : ∀ s ∈ sets, s.Proper := by
    intro s hs
    obtain ⟨e, _, hproper, _⟩ := exists_related h.flip hs
    exact hproper
  obtain ⟨hproper, hmem⟩ := CharSet.union_all hsets CharSet.none_proper
  refine ⟨hproper, ?_⟩
  apply Reading.ext
  intro b w rest
  constructor
  · rintro ⟨c, hc, rfl⟩
    rcases (hmem c).mp hc with hnone | ⟨s, hs, hc⟩
    · cases hnone
    · obtain ⟨e, he, _, hreading⟩ := exists_related h.flip hs
      exact ⟨e, he, hreading ▸ ⟨c, hc, rfl⟩⟩
  · rintro ⟨e, he, hread⟩
    obtain ⟨s, hs, _, hreading⟩ := exists_related h he
    rw [hreading] at hread
    obtain ⟨c, hc, rfl⟩ := hread
    exact ⟨c, (hmem c).mpr (Or.inr ⟨s, hs, hc⟩), rfl⟩

theorem ofFactors_proper : (ofFactors es).Proper ↔ ∀ e ∈ es, e.Proper := by
  induction es with
  | nil => simp [ofFactors, Proper]
  | cons e es ih =>
    cases es with
    | nil => simp [ofFactors]
    | cons f es => rw [ofFactors_cons, Proper, ih, List.forall_mem_cons (a := e)]

theorem ofBranches_proper (h : ∀ e ∈ es, e.Proper) : (ofBranches es).Proper := by
  induction es with
  | nil => exact CharSet.none_proper
  | cons e es ih =>
    obtain ⟨he, hes⟩ := List.forall_mem_cons.mp h
    cases es with
    | nil => exact he
    | cons f es => exact ⟨he, ih hes⟩

theorem factors_proper {e : Expression} (h : e.Proper) : ∀ f ∈ e.factors, f.Proper := by
  induction e with
  | cat e f _ hf => exact List.forall_mem_cons.mpr ⟨h.1, hf h.2⟩
  | empty => exact List.forall_mem_nil _
  | _ => exact List.forall_mem_singleton.mpr h

theorem branches_proper {e : Expression} (h : e.Proper) : ∀ f ∈ e.branches, f.Proper := by
  induction e with
  | either e f _ hf => exact List.forall_mem_cons.mpr ⟨h.1, hf h.2⟩
  | _ => exact List.forall_mem_singleton.mpr h

theorem flatMap_proper {f : Expression → List Expression} (h : ∀ e ∈ es, e.Proper)
    (hf : ∀ {e : Expression}, e.Proper → ∀ g ∈ f e, g.Proper) : ∀ g ∈ es.flatMap f, g.Proper := by
  intro g hg
  obtain ⟨e, he, hge⟩ := List.mem_flatMap.mp hg
  exact hf (h e he) g hge

theorem prepend_proper {e : Expression} (he : e.Proper) (hes : ∀ f ∈ es, f.Proper) :
    ∀ f ∈ prepend e es, f.Proper := by
  cases es with
  | nil => exact List.forall_mem_singleton.mpr he
  | cons f es =>
    dsimp only [prepend]
    split
    · exact List.forall_mem_cons.mpr ⟨trivial, (List.forall_mem_cons.mp hes).2⟩
    · exact List.forall_mem_cons.mpr ⟨he, hes⟩

theorem joined_proper (h : ∀ e ∈ es, e.Proper) : ∀ f ∈ es.foldr prepend [], f.Proper := by
  induction es with
  | nil => exact List.forall_mem_nil _
  | cons e es ih =>
    obtain ⟨he, hes⟩ := List.forall_mem_cons.mp h
    exact prepend_proper he (ih hes)

theorem sequence_proper (h : ∀ e ∈ es, e.Proper) : (sequence es).Proper :=
  ofFactors_proper.mpr (joined_proper (flatMap_proper h factors_proper))

/-- What a choice becomes reads what its alternatives read. -/
theorem alternatives_spec (h : ∀ e ∈ es, e.Proper) :
    (alternatives es).Proper ∧ (alternatives es).reading = readingAny es := by
  have hes := flatMap_proper h branches_proper
  rw [← readingAny_flatMap]
  unfold alternatives
  dsimp only
  split
  · next e he =>
    rw [he] at hes ⊢
    exact ⟨List.forall_mem_singleton.mp hes, (readingAny_singleton e).symm⟩
  · split
    · next sets hsets =>
      obtain ⟨hproper, hreading⟩ := union_spec (sets_spec hes hsets)
      exact ⟨ofSet_proper hproper, (reading_ofSet hproper).trans hreading⟩
    · exact ⟨ofBranches_proper hes, reading_ofBranches _⟩

/-! Shared beginnings -/

theorem commonStart_begins (as bs : List Expression) :
    commonStart as bs <+: as ∧ commonStart as bs <+: bs := by
  induction as generalizing bs with
  | nil => exact ⟨List.nil_prefix, List.nil_prefix⟩
  | cons a as ih =>
    cases bs with
    | nil => exact ⟨List.nil_prefix, List.nil_prefix⟩
    | cons b bs =>
      unfold commonStart
      split
      · next heq =>
        obtain ⟨has, hbs⟩ := ih bs
        have hab : a = b := eq_of_beq heq
        exact ⟨List.cons_prefix_cons.mpr ⟨rfl, has⟩, List.cons_prefix_cons.mpr ⟨hab, hbs⟩⟩
      · exact ⟨List.nil_prefix, List.nil_prefix⟩

theorem foldl_commonStart_begins (rows : List (List Expression)) (start : List Expression) :
    rows.foldl commonStart start <+: start ∧
      ∀ row ∈ rows, rows.foldl commonStart start <+: row := by
  induction rows generalizing start with
  | nil => exact ⟨List.prefix_refl _, List.forall_mem_nil _⟩
  | cons row rows ih =>
    obtain ⟨hstart, hrows⟩ := ih (commonStart start row)
    obtain ⟨hleft, hright⟩ := commonStart_begins start row
    exact ⟨hstart.trans hleft, List.forall_mem_cons.mpr ⟨hstart.trans hright, hrows⟩⟩

theorem sharedStart_begins {rows : List (List Expression)} {row : List Expression}
    (h : row ∈ rows) : sharedStart rows <+: row := by
  cases rows with
  | nil => cases h
  | cons first rows =>
    dsimp only [sharedStart]
    split
    · exact List.nil_prefix
    · obtain ⟨hfirst, hrows⟩ := foldl_commonStart_begins rows first
      rcases List.mem_cons.mp h with rfl | h
      · exact hfirst
      · exact hrows row h

/-- What all alternatives begin with is read before the choice among their rests. -/
theorem readingAny_shared {shared : List Expression}
    (h : ∀ e ∈ es, shared <+: e.factors) : readingAny es = (readingRow shared).andThen
      (readingAny (es.map fun e => ofFactors (e.factors.drop shared.length))) := by
  have hsplit : ∀ e ∈ es, e.reading = (readingRow shared).andThen
      (ofFactors (e.factors.drop shared.length)).reading := by
    intro e he
    have hfactors := List.prefix_iff_eq_append.mp (h e he)
    have hrest : (ofFactors (e.factors.drop shared.length)).reading =
        readingRow (e.factors.drop shared.length) := reading_ofFactors _
    rw [hrest, ← readingRow_append, hfactors, readingRow_factors]
  apply Reading.ext
  intro b w rest
  constructor
  · rintro ⟨e, he, hread⟩
    rw [hsplit e he] at hread
    obtain ⟨u, v, hw, hu, hv⟩ := hread
    exact ⟨u, v, hw, hu, _, List.mem_map_of_mem he, hv⟩
  · rintro ⟨u, v, hw, hu, _, hmem, hv⟩
    obtain ⟨e, he, rfl⟩ := List.mem_map.mp hmem
    refine ⟨e, he, ?_⟩
    rw [hsplit e he]
    exact ⟨u, v, hw, hu, hv⟩

theorem sharedStart_proper (h : ∀ e ∈ es, e.Proper) :
    ∀ f ∈ sharedStart (es.map factors), f.Proper := by
  cases es with
  | nil => exact List.forall_mem_nil _
  | cons e es =>
    intro f hf
    have hstart : sharedStart ((e :: es).map factors) <+: e.factors :=
      sharedStart_begins (List.mem_map_of_mem List.mem_cons_self)
    exact factors_proper (h e List.mem_cons_self) f (hstart.subset hf)

theorem drop_proper (h : ∀ e ∈ es, e.Proper) (n : ℕ) :
    ∀ f ∈ es.map fun e => ofFactors (e.factors.drop n), f.Proper := by
  intro f hf
  obtain ⟨e, he, rfl⟩ := List.mem_map.mp hf
  exact ofFactors_proper.mpr fun g hg => factors_proper (h e he) g (List.mem_of_mem_drop hg)

theorem choice_spec (h : ∀ e ∈ es, e.Proper) :
    (choice es).Proper ∧ (choice es).reading = readingAny es := by
  have hes := flatMap_proper h branches_proper
  rw [← readingAny_flatMap]
  unfold choice
  dsimp only
  have hshared := sharedStart_proper hes
  have hstart : ∀ e ∈ es.flatMap branches,
      sharedStart ((es.flatMap branches).map factors) <+: e.factors := by
    intro e he
    exact sharedStart_begins (List.mem_map_of_mem he)
  generalize sharedStart ((es.flatMap branches).map factors) = shared at hshared hstart
  cases shared with
  | nil => exact alternatives_spec hes
  | cons f shared =>
    dsimp only
    obtain ⟨hproper, hreading⟩ := alternatives_spec (drop_proper hes (f :: shared).length)
    constructor
    · apply sequence_proper
      exact List.forall_mem_append.mpr ⟨hshared, List.forall_mem_singleton.mpr hproper⟩
    · rw [readingAny_shared hstart, reading_sequence, readingRow_append, ← hreading]
      exact congrArg (Reading.andThen _) (andThen_nothing _)

theorem repetition_proper {e : Expression} (he : e.Proper) {least : ℕ} {most : Option ℕ}
    (h : ∀ m ∈ most, least ≤ m) (greedy : Bool) : (repetition least most greedy e).Proper := by
  have hcounts : ∀ m ∈ (if e.isStill then some (min (most.getD 1) 1) else most),
      (if e.isStill then min least 1 else least) ≤ m := by
    split
    · intro m hm
      cases hm
      cases most with
      | none => simp
      | some k =>
        have hle := h k rfl
        simp only [Option.getD_some]
        omega
    · exact h
  unfold repetition
  dsimp only
  split
  · trivial
  · exact he
  · exact ⟨hcounts, he⟩

end Expression

end SparqlTokens
