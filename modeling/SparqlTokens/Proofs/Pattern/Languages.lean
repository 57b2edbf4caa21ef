import Mathlib.Computability.Language
import SparqlTokens.Proofs.Grammar.Building
import SparqlTokens.Proofs.Pattern.Matching

/-! The texts that an expression without anchors describes, as a language. A rule that follows such
an expression accepts the texts of the language, and finds its longest start of a text if the
expression is steady. -/
namespace SparqlTokens

namespace Expression

open Reading

def language : Expression → Language Char
  | empty | textStart | textEnd => 1
  | text cs => {cs}
  | set s => {w | ∃ c ∈ s, w = [c]}
  | capture _ e => e.language
  | repeated least most _ e =>
    {w | ∃ n, least ≤ n ∧ (∀ m ∈ most, n ≤ m) ∧ w ∈ e.language ^ n}
  | cat e f => e.language * f.language
  | either e f => e.language + f.language

/-- No anchor is in the expression. -/
def isPlain : Expression → Bool
  | textStart | textEnd => false
  | empty | text _ | set _ => true
  | capture _ e | repeated _ _ _ e => e.isPlain
  | cat e f | either e f => e.isPlain && f.isPlain

theorem rounds_iff {R : Reading} {l : Language Char} (h : ∀ b w rest, R b w rest ↔ w ∈ l) (n : ℕ)
    (b : Bool) (w rest : List Char) : R.rounds n b w rest ↔ w ∈ l ^ n := by
  induction n generalizing b w rest with
  | zero => exact Iff.rfl
  | succ n ih =>
    rw [pow_succ', Language.mem_mul]
    constructor
    · rintro ⟨u, v, rfl, hu, hv⟩
      exact ⟨u, (h _ _ _).mp hu, v, (ih _ _ _).mp hv, rfl⟩
    · rintro ⟨u, hu, v, hv, rfl⟩
      exact ⟨u, v, rfl, (h _ _ _).mpr hu, (ih _ _ _).mpr hv⟩

theorem reading_iff {e : Expression} (h : e.isPlain = true) (b : Bool) (w rest : List Char) :
    e.reading b w rest ↔ w ∈ e.language := by
  induction e generalizing b w rest with
  | textStart | textEnd => cases h
  | empty | text | set => exact Iff.rfl
  | capture _ e ih => exact ih h b w rest
  | repeated least most _ e ih =>
    have hr := rounds_iff (ih h)
    constructor
    · rintro ⟨n, hl, hm, hn⟩
      exact ⟨n, hl, hm, (hr n b w rest).mp hn⟩
    · rintro ⟨n, hl, hm, hn⟩
      exact ⟨n, hl, hm, (hr n b w rest).mpr hn⟩
  | cat e f he hf =>
    obtain ⟨h₁, h₂⟩ := Bool.and_eq_true_iff.mp h
    rw [language, Language.mem_mul]
    constructor
    · rintro ⟨u, v, rfl, hu, hv⟩
      exact ⟨u, (he h₁ _ _ _).mp hu, v, (hf h₂ _ _ _).mp hv, rfl⟩
    · rintro ⟨u, hu, v, hv, rfl⟩
      exact ⟨u, v, rfl, (he h₁ _ _ _).mpr hu, (hf h₂ _ _ _).mpr hv⟩
  | either e f he hf =>
    obtain ⟨h₁, h₂⟩ := Bool.and_eq_true_iff.mp h
    exact or_congr (he h₁ b w rest) (hf h₂ b w rest)

theorem ofFactors_cons (e f : Expression) (es : List Expression) :
    ofFactors (e :: f :: es) = cat e (ofFactors (f :: es)) := rfl

theorem reading_ofFactors (es : List Expression) :
    (ofFactors es).reading = es.foldr (fun e R => e.reading.andThen R) nothing := by
  induction es with
  | nil => rfl
  | cons e es ih =>
    cases es with
    | nil => exact (andThen_nothing _).symm
    | cons f es => rw [ofFactors_cons, reading, ih]; rfl

theorem reading_factors (e : Expression) (R : Reading) :
    e.factors.foldr (fun e R => e.reading.andThen R) R = e.reading.andThen R := by
  induction e generalizing R with
  | cat e f _ hf => rw [factors, List.foldr_cons, hf, reading, andThen_assoc]
  | empty => exact (nothing_andThen R).symm
  | _ => rfl

theorem enclosed_reading (e : Expression) :
    e.enclosed.reading = atStart.andThen (e.reading.andThen atEnd) := by
  rw [enclosed, reading, reading_ofFactors, List.foldr_append, reading_factors]
  rw [List.foldr_cons, List.foldr_nil, andThen_nothing]
  rfl

theorem atStart_andThen (R : Reading) (w rest : List Char) :
    atStart.andThen R true w rest ↔ R true w rest := by
  constructor
  · rintro ⟨u, v, rfl, ⟨rfl, _⟩, h⟩
    exact h
  · intro h
    exact ⟨[], w, rfl, ⟨rfl, rfl⟩, h⟩

theorem wellFormed_ofFactors {es : List Expression} :
    (ofFactors es).WellFormed ↔ ∀ e ∈ es, e.WellFormed := by
  induction es with
  | nil => simp [ofFactors, WellFormed]
  | cons e es ih =>
    cases es with
    | nil => simp [ofFactors]
    | cons f es => rw [ofFactors_cons, WellFormed, ih, List.forall_mem_cons (a := e)]

theorem wellFormed_factors {e : Expression} (h : e.WellFormed) : ∀ f ∈ e.factors, f.WellFormed := by
  induction e with
  | cat e f _ hf => exact List.forall_mem_cons.mpr ⟨h.1, hf h.2⟩
  | empty => exact fun f hf => (by cases hf)
  | _ => exact List.forall_mem_singleton.mpr h

theorem enclosed_wellFormed {e : Expression} (h : e.WellFormed) : e.enclosed.WellFormed := by
  refine ⟨trivial, wellFormed_ofFactors.mpr ?_⟩
  intro f hf
  rcases List.mem_append.mp hf with hf | hf
  · exact wellFormed_factors h f hf
  · rw [List.mem_singleton.mp hf]; trivial

theorem startsAtTextStart_join (p : Pattern) :
    (Pattern.join .textStart p).startsAtTextStart = true := by
  cases p <;> rfl

theorem led_starts (e : Expression) : e.led.pattern.startsAtTextStart = true :=
  startsAtTextStart_join _

theorem enclosed_starts (e : Expression) : e.enclosed.pattern.startsAtTextStart = true :=
  startsAtTextStart_join _

/-- An expression without anchors whose sets and counts are in order. -/
structure Regular (e : Expression) : Prop where
  plain : e.isPlain = true
  wellFormed : e.WellFormed

/-- A regular expression whose rules find their longest match: while it is sought, no course is
given up for a shorter one. -/
structure Steady (e : Expression) : Prop extends Regular e where
  patient : ∀ text, Pattern.Patient true [[e.led.pattern]] text

def isRegular (e : Expression) : Bool := e.isPlain && decide e.WellFormed

theorem regular_of_isRegular {e : Expression} (h : e.isRegular = true) : e.Regular := by
  obtain ⟨hp, hw⟩ := Bool.and_eq_true_iff.mp h
  exact ⟨hp, of_decide_eq_true hw⟩

/-- Steadiness decided, with at most `bound` situations. -/
def isSteadyWith (bound : ℕ) (e : Expression) : Bool :=
  e.isRegular && e.led.pattern.isPatientWith bound

theorem steady_of_isSteadyWith {bound : ℕ} {e : Expression} (h : e.isSteadyWith bound = true) :
    e.Steady := by
  obtain ⟨hr, hp⟩ := Bool.and_eq_true_iff.mp h
  exact ⟨regular_of_isRegular hr, Pattern.patient_of_isPatientWith hp⟩

theorem led_reading {e : Expression} (h : e.Regular) (w rest : List Char) :
    e.led.pattern.reading true w rest ↔ w ∈ e.language := by
  have hw : e.led.WellFormed := ⟨trivial, h.wellFormed⟩
  rw [pattern, toPattern_reading hw]
  exact (atStart_andThen _ w rest).trans (reading_iff h.plain true w rest)

theorem enclosed_reads {e : Expression} (h : e.Regular) (w rest : List Char) :
    e.enclosed.pattern.reading true w rest ↔ w ∈ e.language ∧ rest = [] := by
  rw [pattern, toPattern_reading (enclosed_wellFormed h.wellFormed), enclosed_reading]
  rw [atStart_andThen]
  constructor
  · rintro ⟨u, v, rfl, hu, rfl, hrest⟩
    rw [List.append_nil]
    exact ⟨(reading_iff h.plain _ _ _).mp hu, hrest⟩
  · rintro ⟨hw, hrest⟩
    exact ⟨w, [], (List.append_nil w).symm, (reading_iff h.plain _ _ _).mpr hw, rfl, hrest⟩

/-- The lengths of the starts of a text that are in a language. -/
def startLengths (l : Language Char) (text : List Char) : Set ℕ :=
  {n | ∃ u, u <+: text ∧ u ∈ l ∧ u.length = n}

theorem readLengths_led {e : Expression} (h : e.Regular) (text : List Char) :
    e.led.pattern.readLengths text = startLengths e.language text := by
  apply Set.ext
  intro n
  constructor
  · rintro ⟨w, rest, rfl, hn, hw⟩
    exact ⟨w, List.prefix_append w rest, (led_reading h w rest).mp hw, hn⟩
  · rintro ⟨w, ⟨rest, rfl⟩, hw, hn⟩
    exact ⟨w, rest, rfl, hn, (led_reading h w rest).mpr hw⟩

end Expression

namespace Rule

open Expression

variable {properties : Pattern.Properties} {r : Rule} {d : Definition} {e : Expression}

theorem accepts_iff (hr : r.Follows properties d e) (h : e.Regular) (text : List Char) :
    r.accepts text = true ↔ text ∈ e.language := by
  rw [accepts, hr.whole, Pattern.find?_isSome_iff (enclosed_starts e)]
  constructor
  · rintro ⟨w, rest, rfl, hw⟩
    obtain ⟨hl, rfl⟩ := (enclosed_reads h w rest).mp hw
    rwa [List.append_nil]
  · intro hl
    exact ⟨text, [], (List.append_nil text).symm, (enclosed_reads h text []).mpr ⟨hl, rfl⟩⟩

theorem leadingLength?_isSome_iff (hr : r.Follows properties d e) (h : e.Regular) {text : List Char} :
    (r.leadingLength? text).isSome ↔ ∃ u, u <+: text ∧ u ∈ e.language := by
  rw [leadingLength?, hr.leading, Pattern.find?_isSome_iff (led_starts e)]
  constructor
  · rintro ⟨w, rest, rfl, hw⟩
    exact ⟨w, List.prefix_append w rest, (led_reading h w rest).mp hw⟩
  · rintro ⟨w, ⟨rest, rfl⟩, hw⟩
    exact ⟨w, rest, rfl, (led_reading h w rest).mpr hw⟩

/-- The match of a rule at the start of a text is the longest start that its expression
describes. -/
theorem leadingLength?_iff (hr : r.Follows properties d e) (h : e.Steady) {text : List Char} {n : ℕ} :
    r.leadingLength? text = some n ↔ IsGreatest (startLengths e.language text) n := by
  rw [leadingLength?, hr.leading, ← readLengths_led h.toRegular]
  exact Pattern.find?_longest (led_starts e) (h.patient text)

end Rule

namespace Expression

open scoped Computability

/-! The languages of forms that occur often. -/

theorem language_many (greedy : Bool) (e : Expression) :
    (repeated 0 none greedy e).language = e.language∗ := by
  rw [Language.kstar_eq_iSup_pow]
  apply Language.ext
  intro w
  rw [Language.mem_iSup]
  constructor
  · rintro ⟨n, _, _, hn⟩
    exact ⟨n, hn⟩
  · rintro ⟨n, hn⟩
    exact ⟨n, Nat.zero_le n, fun m hm => (by cases hm), hn⟩

theorem language_many1 (greedy : Bool) (e : Expression) :
    (repeated 1 none greedy e).language = e.language * e.language∗ := by
  rw [Language.kstar_eq_iSup_pow, Language.mul_iSup]
  apply Language.ext
  intro w
  rw [Language.mem_iSup]
  constructor
  · rintro ⟨n, hl, _, hn⟩
    refine ⟨n - 1, ?_⟩
    rwa [← pow_succ', Nat.sub_add_cancel hl]
  · rintro ⟨n, hn⟩
    rw [← pow_succ'] at hn
    exact ⟨n + 1, by omega, fun m hm => (by cases hm), hn⟩

theorem mem_optional {greedy : Bool} {e : Expression} {w : List Char} :
    w ∈ (repeated 0 (some 1) greedy e).language ↔ w = [] ∨ w ∈ e.language := by
  constructor
  · rintro ⟨n, _, hm, hn⟩
    match n, hm 1 rfl, hn with
    | 0, _, hn => exact Or.inl hn
    | 1, _, hn =>
      rw [pow_one] at hn
      exact Or.inr hn
  · rintro (rfl | hw)
    · exact ⟨0, le_rfl, fun m _ => Nat.zero_le m, rfl⟩
    · refine ⟨1, by omega, fun m hm => by cases hm; exact le_rfl, ?_⟩
      rwa [pow_one]

theorem mem_ofBranches {es : List Expression} {w : List Char} :
    w ∈ (ofBranches es).language ↔ ∃ e ∈ es, w ∈ e.language := by
  induction es with
  | nil =>
    constructor
    · rintro ⟨c, hc, _⟩
      cases hc
    · rintro ⟨e, he, _⟩
      cases he
  | cons e es ih =>
    cases es with
    | nil => simp [ofBranches]
    | cons f es =>
      have hsplit : ofBranches (e :: f :: es) = either e (ofBranches (f :: es)) := rfl
      rw [hsplit, language, Language.mem_add, ih]
      simp only [List.mem_cons, exists_eq_or_imp]

/-! First characters -/

/-- Whether the empty text may be in the language. -/
def mayBeEmpty : Expression → Bool
  | empty | textStart | textEnd => true
  | text cs => cs.isEmpty
  | set _ => false
  | capture _ e => e.mayBeEmpty
  | repeated least _ _ e => least == 0 || e.mayBeEmpty
  | cat e f => e.mayBeEmpty && f.mayBeEmpty
  | either e f => e.mayBeEmpty || f.mayBeEmpty

theorem mayBeEmpty_of_nil_mem {e : Expression} (h : [] ∈ e.language) : e.mayBeEmpty = true := by
  induction e with
  | empty | textStart | textEnd => rfl
  | text cs => rw [mayBeEmpty, ← show [] = cs from h]; rfl
  | set s =>
    obtain ⟨c, _, hc⟩ := h
    cases hc
  | capture _ e ih => exact ih h
  | repeated least most _ e ih =>
    obtain ⟨n, hl, _, hn⟩ := h
    cases n with
    | zero => simp [mayBeEmpty, Nat.le_zero.mp hl]
    | succ n =>
      rw [pow_succ', Language.mem_mul] at hn
      obtain ⟨u, hu, v, _, huv⟩ := hn
      rw [(List.append_eq_nil_iff.mp huv).1] at hu
      simp [mayBeEmpty, ih hu]
  | cat e f he hf =>
    obtain ⟨u, hu, v, hv, huv⟩ := Language.mem_mul.mp h
    obtain ⟨rfl, rfl⟩ := List.append_eq_nil_iff.mp huv
    rw [mayBeEmpty, he hu, hf hv]
    rfl
  | either e f he hf =>
    rcases h with h | h
    · simp [mayBeEmpty, he h]
    · simp [mayBeEmpty, hf h]

/-- A set with the first characters of all texts in the language. -/
def heads : Expression → CharSet
  | empty | textStart | textEnd | text [] => .none
  | text (c :: _) => .single c
  | set s => s
  | capture _ e | repeated _ _ _ e => e.heads
  | cat e f => if e.mayBeEmpty then e.heads.union f.heads else e.heads
  | either e f => e.heads.union f.heads

theorem heads_ascending {e : Expression} (h : e.WellFormed) : e.heads.Ascending := by
  induction e with
  | empty | textStart | textEnd => exact List.Pairwise.nil
  | text cs =>
    cases cs with
    | nil => exact List.Pairwise.nil
    | cons c cs => exact CharSet.single_ascending c
  | set s => exact h
  | capture _ e ih => exact ih h
  | repeated _ _ _ e ih => exact ih h.2
  | cat e f he hf =>
    unfold heads
    split
    · exact CharSet.union_ascending (he h.1) (hf h.2)
    · exact he h.1
  | either e f he hf => exact CharSet.union_ascending (he h.1) (hf h.2)

theorem head_mem_pow {l : Language Char} {s : CharSet} (h : ∀ c w, c :: w ∈ l → c ∈ s) {n : ℕ}
    {c : Char} {w : List Char} (hw : c :: w ∈ l ^ n) : c ∈ s := by
  induction n with
  | zero => cases hw
  | succ n ih =>
    rw [pow_succ', Language.mem_mul] at hw
    obtain ⟨u, hu, v, hv, huv⟩ := hw
    cases u with
    | nil =>
      rw [show v = c :: w from huv] at hv
      exact ih hv
    | cons d u =>
      cases huv
      exact h _ _ hu

theorem head_mem {e : Expression} (h : e.WellFormed) {c : Char} {w : List Char}
    (hw : c :: w ∈ e.language) : c ∈ e.heads := by
  induction e generalizing c w with
  | empty | textStart | textEnd => cases hw
  | text cs =>
    have hcs : c :: w = cs := hw
    subst hcs
    exact CharSet.mem_single.mpr rfl
  | set s =>
    obtain ⟨d, hd, hcd⟩ := hw
    cases hcd
    exact hd
  | capture _ e ih => exact ih h hw
  | repeated least most _ e ih =>
    obtain ⟨n, _, _, hn⟩ := hw
    exact head_mem_pow (fun _ _ h' => ih h.2 h') hn
  | cat e f he hf =>
    obtain ⟨u, hu, v, hv, huv⟩ := Language.mem_mul.mp hw
    unfold heads
    cases u with
    | nil =>
      rw [if_pos (mayBeEmpty_of_nil_mem hu)]
      rw [show v = c :: w from huv] at hv
      exact (CharSet.mem_union (heads_ascending h.1) (heads_ascending h.2)).mpr (Or.inr (hf h.2 hv))
    | cons d u =>
      cases huv
      have hc := he h.1 hu
      split
      · exact (CharSet.mem_union (heads_ascending h.1) (heads_ascending h.2)).mpr (Or.inl hc)
      · exact hc
  | either e f he hf =>
    refine (CharSet.mem_union (heads_ascending h.1) (heads_ascending h.2)).mpr ?_
    rcases hw with hw | hw
    · exact Or.inl (he h.1 hw)
    · exact Or.inr (hf h.2 hw)

/-! All characters -/

/-- A set with all characters of all texts in the language. -/
def alphabet : Expression → CharSet
  | empty | textStart | textEnd => .none
  | text cs => cs.foldr (fun c s => (CharSet.single c).union s) .none
  | set s => s
  | capture _ e | repeated _ _ _ e => e.alphabet
  | cat e f | either e f => e.alphabet.union f.alphabet

theorem text_alphabet (cs : List Char) :
    (text cs).alphabet.Ascending ∧ ∀ c ∈ cs, c ∈ (text cs).alphabet := by
  induction cs with
  | nil => exact ⟨List.Pairwise.nil, fun c hc => by cases hc⟩
  | cons d cs ih =>
    obtain ⟨ha, hm⟩ := ih
    have hd := CharSet.single_ascending d
    refine ⟨CharSet.union_ascending hd ha, ?_⟩
    intro c hc
    apply (CharSet.mem_union hd ha).mpr
    rcases List.mem_cons.mp hc with rfl | hc
    · exact Or.inl (CharSet.mem_single.mpr rfl)
    · exact Or.inr (hm c hc)

theorem alphabet_ascending {e : Expression} (h : e.WellFormed) : e.alphabet.Ascending := by
  induction e with
  | empty | textStart | textEnd => exact List.Pairwise.nil
  | text cs => exact (text_alphabet cs).1
  | set s => exact h
  | capture _ e ih => exact ih h
  | repeated _ _ _ e ih => exact ih h.2
  | cat e f he hf => exact CharSet.union_ascending (he h.1) (hf h.2)
  | either e f he hf => exact CharSet.union_ascending (he h.1) (hf h.2)

theorem mem_alphabet {e : Expression} (h : e.WellFormed) {w : List Char} (hw : w ∈ e.language)
    {c : Char} (hc : c ∈ w) : c ∈ e.alphabet := by
  induction e generalizing w with
  | empty | textStart | textEnd =>
    rw [show w = [] from hw] at hc
    cases hc
  | text cs =>
    rw [show w = cs from hw] at hc
    exact (text_alphabet cs).2 c hc
  | set s =>
    obtain ⟨d, hd, rfl⟩ := hw
    rwa [List.mem_singleton.mp hc]
  | capture _ e ih => exact ih h hw hc
  | repeated _ _ _ e ih =>
    obtain ⟨n, _, _, hn⟩ := hw
    obtain ⟨pieces, rfl, _, hp⟩ := Language.mem_pow.mp hn
    obtain ⟨u, hu, hcu⟩ := List.mem_flatten.mp hc
    exact ih h.2 (hp u hu) hcu
  | cat e f he hf =>
    obtain ⟨u, hu, v, hv, rfl⟩ := Language.mem_mul.mp hw
    apply (CharSet.mem_union (alphabet_ascending h.1) (alphabet_ascending h.2)).mpr
    exact (List.mem_append.mp hc).imp (he h.1 hu) (hf h.2 hv)
  | either e f he hf =>
    apply (CharSet.mem_union (alphabet_ascending h.1) (alphabet_ascending h.2)).mpr
    exact hw.imp (fun hw => he h.1 hw hc) (fun hw => hf h.2 hw hc)

/-! Expressions of one character -/

/-- The set of which an expression takes one character, if its alternatives show that. -/
def letter? : Expression → Option CharSet
  | text [c] => some (.single c)
  | set s => some s
  | either e f => do return (← e.letter?).union (← f.letter?)
  | _ => none

theorem letter?_spec {e : Expression} (h : e.WellFormed) {s : CharSet} (hs : e.letter? = some s) :
    s.Ascending ∧ ∀ w, w ∈ e.language ↔ ∃ c ∈ s, w = [c] := by
  induction e generalizing s with
  | text cs =>
    match cs, hs with
    | [c], hs =>
      cases hs
      refine ⟨CharSet.single_ascending c, fun w => ?_⟩
      simp only [CharSet.mem_single, exists_eq_left]
      exact Iff.rfl
  | set t =>
    cases hs
    exact ⟨h, fun w => Iff.rfl⟩
  | either e f he hf =>
    obtain ⟨t, ht, hs⟩ := Option.bind_eq_some_iff.mp hs
    obtain ⟨u, hu, hs⟩ := Option.bind_eq_some_iff.mp hs
    cases hs
    obtain ⟨hta, htl⟩ := he h.1 ht
    obtain ⟨hua, hul⟩ := hf h.2 hu
    refine ⟨CharSet.union_ascending hta hua, fun w => ?_⟩
    rw [language, Language.mem_add, htl, hul]
    simp only [CharSet.mem_union hta hua]
    constructor
    · rintro (⟨c, hc, rfl⟩ | ⟨c, hc, rfl⟩)
      · exact ⟨c, Or.inl hc, rfl⟩
      · exact ⟨c, Or.inr hc, rfl⟩
    · rintro ⟨c, hc | hc, rfl⟩
      · exact Or.inl ⟨c, hc, rfl⟩
      · exact Or.inr ⟨c, hc, rfl⟩
  | empty | textStart | textEnd | capture | repeated | cat => cases hs

theorem mem_kstar_letters {l : Language Char} {s : CharSet} (h : ∀ w, w ∈ l ↔ ∃ c ∈ s, w = [c])
    {w : List Char} : w ∈ l∗ ↔ ∀ c ∈ w, c ∈ s := by
  rw [Language.mem_kstar]
  constructor
  · rintro ⟨pieces, rfl, hp⟩ c hc
    obtain ⟨u, hu, hcu⟩ := List.mem_flatten.mp hc
    obtain ⟨d, hd, rfl⟩ := (h u).mp (hp u hu)
    rwa [List.mem_singleton.mp hcu]
  · intro hw
    refine ⟨w.map fun c => [c], ?_, ?_⟩
    · induction w with
      | nil => rfl
      | cons c w ih =>
        rw [List.map_cons, List.flatten_cons, ← ih fun d hd => hw d (List.mem_cons_of_mem c hd)]
        rfl
    · intro u hu
      obtain ⟨c, hc, rfl⟩ := List.mem_map.mp hu
      exact (h _).mpr ⟨c, hw c hc, rfl⟩

theorem mem_many_set {greedy : Bool} {s : CharSet} {w : List Char} :
    w ∈ (repeated 0 none greedy (set s)).language ↔ ∀ c ∈ w, c ∈ s := by
  rw [language_many]
  exact mem_kstar_letters fun _ => Iff.rfl

theorem mem_many1_set {greedy : Bool} {s : CharSet} {w : List Char} :
    w ∈ (repeated 1 none greedy (set s)).language ↔ w ≠ [] ∧ ∀ c ∈ w, c ∈ s := by
  rw [language_many1]
  constructor
  · intro h
    obtain ⟨u, ⟨c, hc, rfl⟩, v, hv, rfl⟩ := Language.mem_mul.mp h
    have hrest := (mem_kstar_letters (s := s) fun _ => Iff.rfl).mp hv
    exact ⟨List.cons_ne_nil c v, List.forall_mem_cons.mpr ⟨hc, hrest⟩⟩
  · rintro ⟨hne, hw⟩
    obtain ⟨c, v, rfl⟩ := List.exists_cons_of_ne_nil hne
    obtain ⟨hc, hv⟩ := List.forall_mem_cons.mp hw
    exact Language.append_mem_mul (a := [c]) ⟨c, hc, rfl⟩
      ((mem_kstar_letters (s := s) fun _ => Iff.rfl).mpr hv)

end Expression

end SparqlTokens
