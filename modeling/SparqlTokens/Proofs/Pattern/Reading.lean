import SparqlTokens.Pattern.Frontier
import SparqlTokens.Pattern.Places
import SparqlTokens.Proofs.Pattern.CharSets

/-! What patterns and expressions read. A reading tells of a start of the text ahead whether it can
be read, given whether the text begins here and what is left behind it; this is all that anchors
look at. Preferences do not matter here: they choose among the readings, they make none. -/
namespace SparqlTokens

/-- Whether the text begins here, what is read, and the text left behind it. -/
def Reading := Bool → List Char → List Char → Prop

namespace Reading

theorem ext {R S : Reading} (h : ∀ b w rest, R b w rest ↔ S b w rest) : R = S :=
  funext fun b => funext fun w => funext fun rest => propext (h b w rest)

def nothing : Reading := fun _ w _ => w = []

def char (s : CharSet) : Reading := fun _ w _ => ∃ c ∈ s, w = [c]

def word (cs : List Char) : Reading := fun _ w _ => w = cs

def atStart : Reading := fun b w _ => w = [] ∧ b = true

def atEnd : Reading := fun _ w rest => w = [] ∧ rest = []

/-- First `R`, and then `S` in what is left. -/
def andThen (R S : Reading) : Reading := fun b w rest =>
  ∃ u v, w = u ++ v ∧ R b u (v ++ rest) ∧ S (b && u.isEmpty) v rest

def orElse (R S : Reading) : Reading := fun b w rest => R b w rest ∨ S b w rest

def rounds (R : Reading) : ℕ → Reading
  | 0 => nothing
  | n + 1 => R.andThen (rounds R n)

/-- At least `least` rounds, and at most `most` if that is given. -/
def between (R : Reading) (least : ℕ) (most : Option ℕ) : Reading := fun b w rest =>
  ∃ n, least ≤ n ∧ (∀ m, most = some m → n ≤ m) ∧ R.rounds n b w rest

theorem isEmpty_append (u v : List Char) : (u ++ v).isEmpty = (u.isEmpty && v.isEmpty) := by
  cases u <;> rfl

theorem andThen_assoc (R S T : Reading) : (R.andThen S).andThen T = R.andThen (S.andThen T) := by
  apply ext
  intro b w rest
  constructor
  · rintro ⟨_, t, rfl, ⟨u, v, rfl, hu, hv⟩, ht⟩
    refine ⟨u, v ++ t, List.append_assoc u v t, by rwa [List.append_assoc], v, t, rfl, hv, ?_⟩
    rwa [isEmpty_append, ← Bool.and_assoc] at ht
  · rintro ⟨u, _, rfl, hu, v, t, rfl, hv, ht⟩
    refine ⟨u ++ v, t, (List.append_assoc u v t).symm, ⟨u, v, rfl, ?_, hv⟩, ?_⟩
    · rwa [List.append_assoc] at hu
    · rwa [isEmpty_append, ← Bool.and_assoc]

@[simp]
theorem nothing_andThen (R : Reading) : nothing.andThen R = R := by
  apply ext
  intro b w rest
  constructor
  · rintro ⟨u, v, rfl, rfl, h⟩
    simpa using h
  · intro h
    exact ⟨[], w, rfl, rfl, by simpa using h⟩

@[simp]
theorem andThen_nothing (R : Reading) : R.andThen nothing = R := by
  apply ext
  intro b w rest
  constructor
  · rintro ⟨u, v, rfl, h, rfl⟩
    simpa using h
  · intro h
    exact ⟨w, [], (List.append_nil w).symm, h, rfl⟩

theorem orElse_andThen (R S T : Reading) :
    (R.orElse S).andThen T = (R.andThen T).orElse (S.andThen T) := by
  apply ext
  intro b w rest
  constructor
  · rintro ⟨u, v, hw, hu | hu, hv⟩
    · exact Or.inl ⟨u, v, hw, hu, hv⟩
    · exact Or.inr ⟨u, v, hw, hu, hv⟩
  · rintro (⟨u, v, hw, hu, hv⟩ | ⟨u, v, hw, hu, hv⟩)
    · exact ⟨u, v, hw, Or.inl hu, hv⟩
    · exact ⟨u, v, hw, Or.inr hu, hv⟩

theorem orElse_assoc (R S T : Reading) : (R.orElse S).orElse T = R.orElse (S.orElse T) :=
  ext fun _ _ _ => or_assoc

@[simp]
theorem rounds_one (R : Reading) : R.rounds 1 = R := andThen_nothing R

theorem rounds_add (R : Reading) (m n : ℕ) :
    R.rounds (m + n) = (R.rounds m).andThen (R.rounds n) := by
  induction m with
  | zero => simp [rounds]
  | succ m ih => rw [Nat.succ_add, rounds, ih, rounds, andThen_assoc]

theorem between_exactly (R : Reading) (n : ℕ) : R.between n (some n) = R.rounds n := by
  apply ext
  intro b w rest
  constructor
  · rintro ⟨m, hl, hm, h⟩
    have he : m = n := le_antisymm (hm n rfl) hl
    rwa [← he]
  · intro h
    exact ⟨n, le_rfl, fun m hm => (Option.some.inj hm).le, h⟩

theorem rounds_between (R : Reading) (n least : ℕ) (most : Option ℕ) :
    (R.rounds n).andThen (R.between least most) = R.between (n + least) (most.map (n + ·)) := by
  apply ext
  intro b w rest
  constructor
  · rintro ⟨u, v, hw, hu, k, hl, hm, hv⟩
    refine ⟨n + k, by omega, ?_, ?_⟩
    · intro m h
      obtain ⟨a, ha, rfl⟩ := Option.map_eq_some_iff.mp h
      have := hm a ha
      omega
    · rw [rounds_add]
      exact ⟨u, v, hw, hu, hv⟩
  · rintro ⟨k, hl, hm, h⟩
    rw [show k = n + (k - n) by omega, rounds_add] at h
    obtain ⟨u, v, hw, hu, hv⟩ := h
    refine ⟨u, v, hw, hu, k - n, by omega, ?_, hv⟩
    intro m h
    have := hm (n + m) (by rw [h]; rfl)
    omega

theorem between_optional (R : Reading) : R.between 0 (some 1) = R.orElse nothing := by
  apply ext
  intro b w rest
  constructor
  · rintro ⟨n, _, hm, h⟩
    have := hm 1 rfl
    match n, this with
    | 0, _ => exact Or.inr h
    | 1, _ => rw [rounds_one] at h; exact Or.inl h
  · rintro (h | h)
    · exact ⟨1, by omega, fun m hm => by cases hm; exact le_rfl, by rwa [rounds_one]⟩
    · exact ⟨0, le_rfl, fun m _ => Nat.zero_le m, h⟩

theorem between_unfold (R : Reading) :
    (R.andThen (R.between 0 none)).orElse nothing = R.between 0 none := by
  have h := rounds_between R 1 0 none
  rw [rounds_one, Option.map_none] at h
  rw [h]
  apply ext
  intro b w rest
  constructor
  · rintro (⟨n, _, hm, h⟩ | h)
    · exact ⟨n, Nat.zero_le n, hm, h⟩
    · exact ⟨0, le_rfl, fun m hm => (by cases hm), h⟩
  · rintro ⟨n, _, hm, h⟩
    cases n with
    | zero => exact Or.inr h
    | succ n => exact Or.inl ⟨n + 1, by omega, hm, h⟩

end Reading

open Reading

namespace Pattern

def reading : Pattern → Reading
  | empty => nothing
  | set _ s => char s
  | textStart => atStart
  | textEnd => atEnd
  | cat p q => p.reading.andThen q.reading
  | either _ p q => p.reading.orElse q.reading
  | again _ _ p => p.reading.between 0 none
  | times n p => p.reading.rounds n
  | upTo _ _ n p => p.reading.between 0 (some n)

/-- The reading of what is left to match. -/
def Residual.reading : Residual → Reading
  | [] => nothing
  | p :: k => (Pattern.reading p).andThen (Residual.reading k)

theorem Residual.reading_append (k l : Residual) :
    Residual.reading (k ++ l) = (Residual.reading k).andThen (Residual.reading l) := by
  induction k with
  | nil => simp [Residual.reading]
  | cons p k ih => rw [List.cons_append, Residual.reading, ih, Residual.reading, andThen_assoc]

@[simp]
theorem join_reading (p q : Pattern) : (join p q).reading = p.reading.andThen q.reading := by
  unfold join
  split
  · simp [reading]
  · simp [reading]
  · rfl

theorem optional_reading (place : ℕ) (greedy : Bool) (p : Pattern) :
    (optional place greedy p).reading = p.reading.between 0 (some 1) := by
  rw [between_optional]
  unfold optional
  split
  · rfl
  · exact Reading.ext fun _ _ _ => or_comm

theorem ofText_reading (place : ℕ) (cs : List Char) : (ofText place cs).reading = word cs := by
  induction cs generalizing place with
  | nil => rfl
  | cons c cs ih =>
    rw [ofText, join_reading, ih]
    apply Reading.ext
    intro b w rest
    constructor
    · rintro ⟨_, _, rfl, ⟨d, hd, rfl⟩, rfl⟩
      rw [CharSet.mem_single.mp hd]
      rfl
    · rintro rfl
      exact ⟨[c], cs, rfl, ⟨c, CharSet.mem_single.mpr rfl, rfl⟩, rfl⟩

theorem repeated_reading (place least : ℕ) (most : Option ℕ) (greedy reads : Bool) (p : Pattern)
    (h : ∀ m, most = some m → least ≤ m) :
    (repeated place least most greedy reads p).reading = p.reading.between least most := by
  have more : ∀ n, (p.reading.rounds n).andThen (p.reading.between 0 none) =
      p.reading.between n none := fun n => rounds_between p.reading n 0 none
  unfold repeated
  split
  · exact optional_reading place greedy p
  · split
    · rfl
    · rw [optional_reading, join_reading, between_optional]
      exact between_unfold p.reading
  · rw [join_reading]
    have := more 1
    rwa [rounds_one] at this
  · next n _ =>
    rw [reading, join_reading, reading, reading, ← andThen_assoc]
    have := rounds_add p.reading n 1
    rw [rounds_one] at this
    rw [← this]
    exact more (n + 1)
  · rfl
  · next n m _ _ =>
    split
    · next hnm => rw [hnm, between_exactly]; rfl
    · rw [reading, reading, reading, rounds_between]
      have := h m rfl
      simp only [Option.map_some, Nat.add_zero]
      congr 2
      omega

/-- All sets of a pattern have ascending bounds. -/
def Ascending : Pattern → Prop
  | set _ s => s.Ascending
  | cat p q | either _ p q => p.Ascending ∧ q.Ascending
  | again _ _ p | times _ p | upTo _ _ _ p => p.Ascending
  | empty | textStart | textEnd => True

theorem char_union {s t : CharSet} (hs : s.Ascending) (ht : t.Ascending) :
    char (s.union t) = (char s).orElse (char t) := by
  apply Reading.ext
  intro b w rest
  constructor
  · rintro ⟨c, hc, hw⟩
    exact ((CharSet.mem_union hs ht).mp hc).imp (fun h => ⟨c, h, hw⟩) fun h => ⟨c, h, hw⟩
  · rintro (⟨c, hc, hw⟩ | ⟨c, hc, hw⟩)
    · exact ⟨c, (CharSet.mem_union hs ht).mpr (Or.inl hc), hw⟩
    · exact ⟨c, (CharSet.mem_union hs ht).mpr (Or.inr hc), hw⟩

theorem choose_reading (place : ℕ) {p q : Pattern} (hp : p.Ascending) (hq : q.Ascending) :
    (choose place p q).reading = p.reading.orElse q.reading := by
  unfold choose
  split
  · exact char_union hp hq
  · rw [reading, reading, reading, char_union hp hq.1, orElse_assoc]
    rfl
  · rfl

theorem join_ascending {p q : Pattern} (hp : p.Ascending) (hq : q.Ascending) :
    (join p q).Ascending := by
  unfold join
  split
  · exact hq
  · exact hp
  · exact ⟨hp, hq⟩

theorem choose_ascending (place : ℕ) {p q : Pattern} (hp : p.Ascending) (hq : q.Ascending) :
    (choose place p q).Ascending := by
  unfold choose
  split
  · exact CharSet.union_ascending hp hq
  · exact ⟨CharSet.union_ascending hp hq.1, hq.2⟩
  · exact ⟨hp, hq⟩

theorem optional_ascending (place : ℕ) (greedy : Bool) {p : Pattern} (hp : p.Ascending) :
    (optional place greedy p).Ascending := by
  unfold optional
  split
  · exact ⟨hp, trivial⟩
  · exact ⟨trivial, hp⟩

theorem ofText_ascending (place : ℕ) (cs : List Char) : (ofText place cs).Ascending := by
  induction cs generalizing place with
  | nil => trivial
  | cons c cs ih => exact join_ascending (CharSet.single_ascending c) (ih _)

theorem repeated_ascending (place least : ℕ) (most : Option ℕ) (greedy reads : Bool) {p : Pattern}
    (hp : p.Ascending) : (repeated place least most greedy reads p).Ascending := by
  unfold repeated
  split
  · exact optional_ascending _ _ hp
  · split
    · exact hp
    · exact optional_ascending _ _ (join_ascending hp hp)
  · exact join_ascending hp hp
  · exact ⟨hp, join_ascending hp hp⟩
  · exact hp
  · split
    · exact hp
    · exact ⟨hp, hp⟩

end Pattern

namespace Expression

def reading : Expression → Reading
  | empty => nothing
  | text cs => word cs
  | set s => char s
  | textStart => atStart
  | textEnd => atEnd
  | capture _ e => e.reading
  | repeated least most _ e => e.reading.between least most
  | cat e f => e.reading.andThen f.reading
  | either e f => e.reading.orElse f.reading

/-- Sets have ascending bounds, and the bounds of repetitions are in order. -/
def WellFormed : Expression → Prop
  | set s => s.Ascending
  | capture _ e => e.WellFormed
  | repeated least most _ e => (∀ m ∈ most, least ≤ m) ∧ e.WellFormed
  | cat e f | either e f => e.WellFormed ∧ f.WellFormed
  | empty | text _ | textStart | textEnd => True

instance decideWellFormed : (e : Expression) → Decidable e.WellFormed
  | set s => inferInstanceAs (Decidable s.Ascending)
  | capture _ e => decideWellFormed e
  | repeated _ _ _ e => @instDecidableAnd _ _ _ (decideWellFormed e)
  | cat e f | either e f => @instDecidableAnd _ _ (decideWellFormed e) (decideWellFormed f)
  | empty | text _ | textStart | textEnd => isTrue trivial

theorem toPattern_ascending {e : Expression} (h : e.WellFormed) (place : ℕ) :
    (e.toPattern place).1.Ascending := by
  induction e generalizing place with
  | empty | textStart | textEnd => trivial
  | text cs => exact Pattern.ofText_ascending place cs
  | set s => exact h
  | capture _ e ih => exact ih h place
  | repeated least most greedy e ih => exact Pattern.repeated_ascending _ _ _ _ _ (ih h.2 _)
  | cat e f he hf => exact Pattern.join_ascending (he h.1 _) (hf h.2 _)
  | either e f he hf => exact Pattern.choose_ascending _ (he h.1 _) (hf h.2 _)

theorem toPattern_reading {e : Expression} (h : e.WellFormed) (place : ℕ) :
    (e.toPattern place).1.reading = e.reading := by
  induction e generalizing place with
  | empty | textStart | textEnd | set => rfl
  | text cs => exact Pattern.ofText_reading place cs
  | capture _ e ih => exact ih h place
  | repeated least most greedy e ih =>
    exact (Pattern.repeated_reading _ _ _ _ _ _ h.1).trans (by rw [ih h.2]; rfl)
  | cat e f he hf =>
    exact (Pattern.join_reading _ _).trans (by rw [he h.1, hf h.2]; rfl)
  | either e f he hf =>
    exact (Pattern.choose_reading _ (toPattern_ascending h.1 _) (toPattern_ascending h.2 _)).trans
      (by rw [he h.1, hf h.2]; rfl)

end Expression

end SparqlTokens
