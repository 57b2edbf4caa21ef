import SparqlTokens.Proofs.Sparql.Blanks
import SparqlTokens.Proofs.Sparql.Composites
import SparqlTokens.Proofs.Sparql.LongestMatch

/-! Where texts in quotes end. The body of one is read from left to right by units, an escape or a
single character, and stands between three quotes and three quotes if no three units in a row are
quotes and the last is none. No text in quotes is the start of another by the same rule, so the
match of a long one ends at the first three quotes that are not escaped. -/
namespace SparqlTokens.Sparql

open Form Terminal
open Text (byteSize)
open scoped Computability

attribute [local irreducible] table Terminal.rule

inductive BodyUnit where
  | plain (c : Char)
  /-- An escape, by the character behind the backslash. -/
  | escaped (c : Char)
  deriving DecidableEq

/-- The units of a body, from left to right; none if a backslash begins no escape. -/
def units? : List Char → Option (List BodyUnit)
  | [] => some []
  | ['\\'] => none
  | '\\' :: c :: r => if c ∈ escapeSigns then (units? r).map (.escaped c :: ·) else none
  | c :: r => (units? r).map (.plain c :: ·)

/-- What may stand before three quotes: no three quotes in a row, and no quote at the end. -/
structure Closable (quote : Char) (units : List BodyUnit) : Prop where
  apart : ¬ [.plain quote, .plain quote, .plain quote] <:+: units
  last : units.getLast? ≠ some (.plain quote)

/-- The first place behind whole units of a text at which three quotes stand. -/
structure FirstCloses (quote : Char) (text body : List Char) : Prop where
  units : (units? body).isSome = true
  closes : body ++ [quote, quote, quote] <+: text
  first : ∀ other, (units? other).isSome = true → other ++ [quote, quote, quote] <+: text →
    body.length ≤ other.length

/-! Units -/

namespace BodyUnit

def text : BodyUnit → List Char
  | plain c => [c]
  | escaped c => ['\\', c]

/-- A unit that reading gives: a backslash stands in escapes alone. -/
def Valid : BodyUnit → Prop
  | plain c => c ≠ '\\'
  | escaped c => c ∈ escapeSigns

theorem units?_append {u : BodyUnit} (h : u.Valid) (r : List Char) :
    units? (u.text ++ r) = (units? r).map (u :: ·) := by
  cases u with
  | plain c =>
    have hback : c ≠ '\\' := h
    rw [text, List.singleton_append, units?]
    · intro hc
      exact absurd hc hback
    · intro d s hc
      exact absurd hc hback
  | escaped c =>
    have hsign : c ∈ escapeSigns := h
    rw [text, List.cons_append, List.singleton_append, units?, if_pos hsign]

end BodyUnit

/-- The units that are read from a text are those that it is written with. -/
theorem units?_iff {body : List Char} {us : List BodyUnit} :
    units? body = some us ↔ body = us.flatMap BodyUnit.text ∧ ∀ u ∈ us, u.Valid := by
  constructor
  · intro h
    fun_induction units? body generalizing us with
    | case1 =>
      cases h
      exact ⟨rfl, List.forall_mem_nil _⟩
    | case2 | case4 => cases h
    | case3 c r hc ih =>
      obtain ⟨vs, hvs, rfl⟩ := Option.map_eq_some_iff.mp h
      obtain ⟨hr, hvalid⟩ := ih hvs
      exact ⟨by rw [List.flatMap_cons, ← hr]; rfl, List.forall_mem_cons.mpr ⟨hc, hvalid⟩⟩
    | case5 c r hlone hescape ih =>
      obtain ⟨vs, hvs, rfl⟩ := Option.map_eq_some_iff.mp h
      obtain ⟨hr, hvalid⟩ := ih hvs
      have hback : c ≠ '\\' := by
        rintro rfl
        cases r with
        | nil => exact hlone rfl rfl
        | cons d r => exact hescape d r rfl rfl
      exact ⟨by rw [List.flatMap_cons, ← hr]; rfl, List.forall_mem_cons.mpr ⟨hback, hvalid⟩⟩
  · rintro ⟨rfl, hvalid⟩
    induction us with
    | nil => rfl
    | cons u us ih =>
      obtain ⟨hu, hus⟩ := List.forall_mem_cons.mp hvalid
      rw [List.flatMap_cons, BodyUnit.units?_append hu, ih hus]
      rfl

theorem units?_append {a b : List Char} {us vs : List BodyUnit} (ha : units? a = some us)
    (hb : units? b = some vs) : units? (a ++ b) = some (us ++ vs) := by
  rw [units?_iff] at ha hb ⊢
  rw [ha.1, hb.1]
  exact ⟨List.flatMap_append.symm, List.forall_mem_append.mpr ⟨ha.2, hb.2⟩⟩

/-- Behind whole units, the rest of a text is read by itself. -/
theorem units?_split {a b : List Char} {us ws : List BodyUnit} (ha : units? a = some us)
    (h : units? (a ++ b) = some ws) : ∃ vs, units? b = some vs ∧ ws = us ++ vs := by
  obtain ⟨rfl, hvalid⟩ := units?_iff.mp ha
  clear ha
  induction us generalizing ws with
  | nil => exact ⟨ws, h, rfl⟩
  | cons u us ih =>
    obtain ⟨hu, hus⟩ := List.forall_mem_cons.mp hvalid
    rw [List.flatMap_cons, List.append_assoc, BodyUnit.units?_append hu] at h
    obtain ⟨ws, hws, rfl⟩ := Option.map_eq_some_iff.mp h
    obtain ⟨vs, hvs, rfl⟩ := ih hus hws
    exact ⟨vs, hvs, rfl⟩

section Bodies

variable {quote : Char} {us : List BodyUnit} {u : BodyUnit}

/-! The bodies that the rules describe -/

theorem closable_nil : Closable quote [] := ⟨by simp, by simp⟩

theorem closable_cons (hu : u ≠ .plain quote) :
    Closable quote (u :: us) ↔ Closable quote us := by
  have hapart : [.plain quote, .plain quote, .plain quote] <:+: u :: us ↔
      [.plain quote, .plain quote, .plain quote] <:+: us := by
    rw [List.infix_cons_iff, List.cons_prefix_cons]
    exact or_iff_right fun h => hu h.1.symm
  have hlast : (u :: us).getLast? = some (.plain quote) ↔
      us.getLast? = some (.plain quote) := by
    cases us with
    | nil => simp [hu]
    | cons v us => rw [List.getLast?_cons_cons]
  exact ⟨fun h => ⟨mt hapart.mpr h.apart, mt hlast.mpr h.last⟩,
    fun h => ⟨mt hapart.mp h.apart, mt hlast.mp h.last⟩⟩

theorem closable_quote : Closable quote (.plain quote :: us) ↔
    Closable quote us ∧ us ≠ [] ∧ ¬ [.plain quote, .plain quote] <+: us := by
  have hapart : [.plain quote, .plain quote, .plain quote] <:+: .plain quote :: us ↔
      [.plain quote, .plain quote] <+: us ∨
        [.plain quote, .plain quote, .plain quote] <:+: us := by
    rw [List.infix_cons_iff, List.cons_prefix_cons]
    exact or_congr_left (and_iff_right rfl)
  have hlast : (.plain quote :: us).getLast? = some (.plain quote) ↔
      us = [] ∨ us.getLast? = some (.plain quote) := by
    cases us with
    | nil => simp
    | cons v us => simp [List.getLast?_cons_cons]
  constructor
  · intro h
    obtain ⟨hpair, hwithin⟩ := not_or.mp (mt hapart.mpr h.apart)
    obtain ⟨hne, hend⟩ := not_or.mp (mt hlast.mpr h.last)
    exact ⟨⟨hwithin, hend⟩, hne, hpair⟩
  · rintro ⟨h, hne, hpair⟩
    exact ⟨mt hapart.mp (not_or.mpr ⟨hpair, h.apart⟩), mt hlast.mp (not_or.mpr ⟨hne, h.last⟩)⟩

theorem mem_unit {w : List Char} : w ∈ (charUnless [quote, '\\']).language ↔
    ∃ u : BodyUnit, u.Valid ∧ u ≠ .plain quote ∧ w = u.text := by
  rw [mem_charUnless]
  constructor
  · rintro (⟨c, hc, rfl⟩ | ⟨c, hc, rfl⟩)
    · simp only [List.mem_cons, List.not_mem_nil, or_false, not_or] at hc
      exact ⟨.plain c, hc.2, fun he => hc.1 (BodyUnit.plain.inj he), rfl⟩
    · exact ⟨.escaped c, hc, nofun, rfl⟩
  · rintro ⟨u, hvalid, hne, rfl⟩
    cases u with
    | plain c =>
      have hback : c ≠ '\\' := hvalid
      have hquote : c ≠ quote := fun he => hne (congrArg _ he)
      exact Or.inl ⟨c, by simp [hback, hquote], rfl⟩
    | escaped c => exact Or.inr ⟨c, hvalid, rfl⟩

theorem mem_part {w : List Char} : w ∈ (longPart quote).language ↔
    ∃ k ≤ 2, ∃ u : BodyUnit, u.Valid ∧ u ≠ .plain quote ∧
      w = List.replicate k quote ++ u.text := by
  rw [mem_longPart]
  constructor
  · rintro ⟨v, hv, hw⟩
    obtain ⟨u, hvalid, hne, rfl⟩ := mem_unit.mp hv
    rcases hw with rfl | rfl | rfl
    · exact ⟨0, by omega, u, hvalid, hne, rfl⟩
    · exact ⟨1, by omega, u, hvalid, hne, rfl⟩
    · exact ⟨2, by omega, u, hvalid, hne, rfl⟩
  · rintro ⟨k, hk, u, hvalid, hne, rfl⟩
    refine ⟨u.text, mem_unit.mpr ⟨u, hvalid, hne, rfl⟩, ?_⟩
    match k, hk with
    | 0, _ => exact Or.inl rfl
    | 1, _ => exact Or.inr (Or.inl rfl)
    | 2, _ => exact Or.inr (Or.inr rfl)

/-- At most two quotes before a unit that is none make no difference. -/
theorem closable_part (hu : u ≠ .plain quote) {k : ℕ} (hk : k ≤ 2) :
    Closable quote (List.replicate k (.plain quote) ++ u :: us) ↔ Closable quote us := by
  refine Iff.trans ?_ (closable_cons hu)
  have hone : Closable quote (.plain quote :: u :: us) ↔ Closable quote (u :: us) := by
    rw [closable_quote]
    refine and_iff_left ⟨List.cons_ne_nil _ _, fun h => ?_⟩
    exact hu (List.cons_prefix_cons.mp h).1.symm
  have htwo : Closable quote (.plain quote :: .plain quote :: u :: us) ↔
      Closable quote (.plain quote :: u :: us) := by
    rw [closable_quote]
    refine and_iff_left ⟨List.cons_ne_nil _ _, fun h => ?_⟩
    have hsecond := (List.cons_prefix_cons.mp h).2
    exact hu (List.cons_prefix_cons.mp hsecond).1.symm
  match k, hk with
  | 0, _ => exact Iff.rfl
  | 1, _ => exact hone
  | 2, _ => exact htwo.trans hone

/-- What may stand before three quotes begins with a part. -/
theorem Closable.leading (h : Closable quote us) (hne : us ≠ []) : ∃ k ≤ 2, ∃ u vs,
    u ≠ .plain quote ∧ us = List.replicate k (.plain quote) ++ u :: vs := by
  obtain ⟨u, us, rfl⟩ := List.exists_cons_of_ne_nil hne
  by_cases hu : u = .plain quote
  · subst hu
    obtain ⟨hrest, hne, hpair⟩ := closable_quote.mp h
    obtain ⟨v, vs, rfl⟩ := List.exists_cons_of_ne_nil hne
    by_cases hv : v = .plain quote
    · subst hv
      obtain ⟨_, hne, _⟩ := closable_quote.mp hrest
      obtain ⟨w, ws, rfl⟩ := List.exists_cons_of_ne_nil hne
      refine ⟨2, le_rfl, w, ws, ?_, rfl⟩
      rintro rfl
      exact hpair ⟨ws, rfl⟩
    · exact ⟨1, by omega, v, vs, hv, rfl⟩
  · exact ⟨0, by omega, u, us, hu, rfl⟩

theorem quotes_text (k : ℕ) :
    (List.replicate k (.plain quote)).flatMap BodyUnit.text = List.replicate k quote := by
  induction k with
  | zero => rfl
  | succ k ih =>
    rw [List.replicate_succ, List.flatMap_cons, ih]
    rfl

theorem units?_quotes (hq : quote ≠ '\\') (k : ℕ) :
    units? (List.replicate k quote) = some (List.replicate k (.plain quote)) := by
  refine units?_iff.mpr ⟨(quotes_text k).symm, fun u hu => ?_⟩
  rw [List.eq_of_mem_replicate hu]
  exact hq

theorem parts_closable (hq : quote ≠ '\\') {pieces : List (List Char)}
    (h : ∀ w ∈ pieces, w ∈ (longPart quote).language) :
    ∃ us, units? pieces.flatten = some us ∧ Closable quote us := by
  induction pieces with
  | nil => exact ⟨[], rfl, closable_nil⟩
  | cons w pieces ih =>
    obtain ⟨hw, hpieces⟩ := List.forall_mem_cons.mp h
    obtain ⟨us, hus, hclosable⟩ := ih hpieces
    obtain ⟨k, hk, u, hvalid, hne, rfl⟩ := mem_part.mp hw
    have hunit : units? (u.text ++ pieces.flatten) = some (u :: us) := by
      rw [BodyUnit.units?_append hvalid, hus]
      rfl
    refine ⟨List.replicate k (.plain quote) ++ u :: us, ?_, (closable_part hne hk).mpr hclosable⟩
    rw [List.flatten_cons, List.append_assoc]
    exact units?_append (units?_quotes hq k) hunit

/-- The induction takes quotes away together with the unit behind them. -/
theorem closable_parts (hvalid : ∀ u ∈ us, u.Valid) (h : Closable quote us) :
    us.flatMap BodyUnit.text ∈ (longPart quote).language∗ := by
  induction hn : us.length using Nat.strong_induction_on generalizing us with
  | h n ih =>
    by_cases hnil : us = []
    · subst hnil
      exact Language.nil_mem_kstar _
    · obtain ⟨k, hk, u, vs, hu, rfl⟩ := h.leading hnil
      obtain ⟨_, htail⟩ := List.forall_mem_append.mp hvalid
      obtain ⟨hfirst, hvs⟩ := List.forall_mem_cons.mp htail
      have hlt : vs.length < n := by
        rw [← hn, List.length_append, List.length_cons]
        omega
      have hpart : List.replicate k quote ++ u.text ∈ (longPart quote).language :=
        mem_part.mpr ⟨k, hk, u, hfirst, hu, rfl⟩
      have hrest := ih _ hlt hvs ((closable_part hu hk).mp h) rfl
      rw [List.flatMap_append, List.flatMap_cons, quotes_text, ← List.append_assoc]
      exact kstar_append hpart hrest

theorem mem_parts (hq : quote ≠ '\\') {body : List Char} :
    body ∈ (longPart quote).language∗ ↔ ∃ us, units? body = some us ∧ Closable quote us := by
  constructor
  · intro h
    obtain ⟨pieces, rfl, hpieces⟩ := Language.mem_kstar.mp h
    exact parts_closable hq hpieces
  · rintro ⟨us, hus, hclosable⟩
    obtain ⟨rfl, hvalid⟩ := units?_iff.mp hus
    exact closable_parts hvalid hclosable

/-! The first three quotes -/

theorem closable_append {vs : List BodyUnit} (h : Closable quote (us ++ vs)) :
    Closable quote vs := by
  constructor
  · intro hwithin
    exact h.apart (hwithin.trans (List.suffix_append us vs).isInfix)
  · intro hlast
    apply h.last
    rw [List.getLast?_append, hlast]
    rfl

theorem BodyUnit.text_cons (hq : quote ≠ '\\') (hu : u ≠ .plain quote) :
    ∃ c r, u.text = c :: r ∧ c ≠ quote := by
  cases u with
  | plain c => exact ⟨c, [], rfl, fun he => hu (congrArg _ he)⟩
  | escaped c => exact ⟨'\\', [c], rfl, hq.symm⟩

/-- Units that may stand before three quotes do not begin with them, whatever follows. -/
theorem closable_open (hq : quote ≠ '\\') (h : Closable quote us) (hne : us ≠ [])
    (r : List Char) : ¬ [quote, quote, quote] <+: us.flatMap BodyUnit.text ++ r := by
  obtain ⟨k, hk, u, vs, hu, rfl⟩ := h.leading hne
  obtain ⟨c, s, htext, hc⟩ := BodyUnit.text_cons hq hu
  rw [List.flatMap_append, List.flatMap_cons, quotes_text, htext]
  intro hopen
  match k, hk with
  | 0, _ => exact hc (List.cons_prefix_cons.mp hopen).1.symm
  | 1, _ =>
    have hsecond := (List.cons_prefix_cons.mp hopen).2
    exact hc (List.cons_prefix_cons.mp hsecond).1.symm
  | 2, _ =>
    have hsecond := (List.cons_prefix_cons.mp hopen).2
    have hthird := (List.cons_prefix_cons.mp hsecond).2
    exact hc (List.cons_prefix_cons.mp hthird).1.symm

/-- No shorter text, written with the first of the units of the body, has three quotes behind it. -/
theorem FirstCloses.later {text body : List Char} (h : FirstCloses quote text body)
    {s t : List BodyUnit} (hst : units? body = some (s ++ t)) (ht : t ≠ []) (r : List Char) :
    s.flatMap BodyUnit.text ++ [quote, quote, quote] ++ r ≠ body ++ [quote, quote, quote] := by
  intro he
  obtain ⟨hbody, hvalid⟩ := units?_iff.mp hst
  have hs : units? (s.flatMap BodyUnit.text) = some s :=
    units?_iff.mpr ⟨rfl, (List.forall_mem_append.mp hvalid).1⟩
  have hstart : s.flatMap BodyUnit.text ++ [quote, quote, quote] <+:
      body ++ [quote, quote, quote] := ⟨r, he⟩
  have hle := h.first _ (by rw [hs]; rfl) (hstart.trans h.closes)
  obtain ⟨u, t, rfl⟩ := List.exists_cons_of_ne_nil ht
  have hpos : u.text ≠ [] := by cases u <;> simp [BodyUnit.text]
  have hlength := congrArg List.length hbody
  have := List.length_pos_of_ne_nil hpos
  simp only [List.flatMap_append, List.flatMap_cons, List.length_append] at hlength
  omega

theorem FirstCloses.closable {text body : List Char} (h : FirstCloses quote text body) :
    ∃ us, units? body = some us ∧ Closable quote us := by
  obtain ⟨us, hus⟩ := Option.isSome_iff_exists.mp h.units
  have hbody := (units?_iff.mp hus).1
  refine ⟨us, hus, ?_, ?_⟩
  · rintro ⟨s, t, rfl⟩
    rw [List.append_assoc] at hus
    refine h.later hus (by simp) (t.flatMap BodyUnit.text ++ [quote, quote, quote]) ?_
    rw [hbody]
    simp [BodyUnit.text]
  · intro hlast
    obtain ⟨s, rfl⟩ := List.getLast?_eq_some_iff.mp hlast
    refine h.later hus (by simp) [quote] ?_
    rw [hbody]
    simp [BodyUnit.text]

theorem Closable.first (hq : quote ≠ '\\') {text body : List Char} (h : Closable quote us)
    (hus : units? body = some us) (hcloses : body ++ [quote, quote, quote] <+: text) :
    FirstCloses quote text body := by
  refine ⟨by rw [hus]; rfl, hcloses, ?_⟩
  intro other hother hstart
  obtain ⟨vs, hvs⟩ := Option.isSome_iff_exists.mp hother
  by_contra hlt
  have hshort : other <+: body := List.prefix_of_prefix_length_le
    ((List.prefix_append _ _).trans hstart) ((List.prefix_append _ _).trans hcloses) (by omega)
  obtain ⟨x, rfl⟩ := hshort
  obtain ⟨r, rfl⟩ := hcloses
  obtain ⟨xs, hxs, rfl⟩ := units?_split hvs hus
  obtain ⟨rfl, _⟩ := units?_iff.mp hxs
  have hne : xs ≠ [] := by
    rintro rfl
    simp at hlt
  rw [List.append_assoc, List.append_assoc, List.prefix_append_right_inj] at hstart
  exact closable_open hq (closable_append h) hne _ hstart

/-- Three quotes close a text at the first place where they stand if and only if the body before
them may stand there. -/
theorem firstCloses_iff (hq : quote ≠ '\\') {text body : List Char} :
    FirstCloses quote text body ↔
      (∃ us, units? body = some us ∧ Closable quote us) ∧
        body ++ [quote, quote, quote] <+: text := by
  constructor
  · intro h
    exact ⟨h.closable, h.closes⟩
  · rintro ⟨⟨us, hus, hclosable⟩, hcloses⟩
    exact hclosable.first hq hus hcloses

end Bodies

namespace Terminal

variable {T : Terminal} {u v : List Char}

theorem quoted_start (hT : T ∈ quoted) (hu : u ∈ T.words) (hv : v ∈ T.words) (h : u <+: v) :
    u = v := by
  obtain ⟨r, rfl⟩ := h
  by_cases hr : r = []
  · rw [hr, List.append_nil]
  · exact absurd hv (quoted_ends hT hu hr)

theorem quoted_unique (hT : T ∈ quoted) (hu : u ∈ T.words) (hv : v ∈ T.words) {text : List Char}
    (hut : u <+: text) (hvt : v <+: text) : u = v := by
  rcases List.prefix_or_prefix_of_prefix hut hvt with h | h
  · exact quoted_start hT hu hv h
  · exact (quoted_start hT hv hu h).symm

/-- A rule for texts in quotes matches whatever start of a text it accepts. -/
theorem quoted_leading (hT : T ∈ quoted) {text : List Char} {n : ℕ} :
    T.rule.leadingBytes? text = some n ↔ ∃ u, u <+: text ∧ u ∈ T.words ∧ byteSize u = n := by
  rw [leadingBytes?_iff]
  constructor
  · exact fun h => h.1
  · rintro ⟨u, hu, hw, rfl⟩
    refine ⟨⟨u, hu, hw, rfl⟩, ?_⟩
    rintro _ ⟨v, hv, hwv, rfl⟩
    rw [quoted_unique hT hwv hw hv hu]

theorem matchAt?_between (T : Terminal) (before text : List Char) :
    table.matchAt? T.name (before ++ text) (byteSize before) =
      some (T.rule.leadingBytes? text) := by
  rw [Table.matchAt?, rule?_name, Option.map_some, Text.dropBytes?_byteSize_append,
    Option.bind_some]

end Terminal

theorem mem_stringRules {name : String} (h : name ∈ stringRules) :
    ∃ T ∈ quoted, T.name = name := by
  have hnames : stringRules = quoted.map Terminal.name := rfl
  rw [hnames] at h
  exact List.mem_map.mp h

section Long

variable {quote : Char} {S L : Terminal} (hQ : Quotes quote S L)
include hQ

theorem long_quoted : L ∈ quoted := by
  have hword : [quote, quote, quote] ++ [] ++ [quote, quote, quote] ∈ L.words := by
    rw [hQ.long_words]
    exact mem_long.mpr ⟨[], Language.nil_mem_kstar _, rfl⟩
  exact quoted_of_head hQ.long_mem hQ.kind hword

theorem long_word_iff {body : List Char} :
    [quote, quote, quote] ++ body ++ [quote, quote, quote] ∈ L.words ↔
      ∃ us, units? body = some us ∧ Closable quote us := by
  rw [hQ.long_words, mem_long, ← mem_parts (no_escape hQ.kind)]
  constructor
  · rintro ⟨other, hother, he⟩
    have he : body = other := by simpa using he
    rwa [he]
  · intro h
    exact ⟨body, h, rfl⟩

/-- The match of a long text ends at the first three quotes behind those that open it. -/
theorem long_leading_iff {text : List Char} {n : ℕ} :
    L.rule.leadingBytes? ([quote, quote, quote] ++ text) = some n ↔
      ∃ body, FirstCloses quote text body ∧
        byteSize ([quote, quote, quote] ++ body ++ [quote, quote, quote]) = n := by
  rw [quoted_leading (long_quoted hQ)]
  constructor
  · rintro ⟨u, hu, hw, rfl⟩
    have hlong := hw
    rw [hQ.long_words] at hlong
    obtain ⟨body, _, rfl⟩ := mem_long.mp hlong
    rw [List.append_assoc, List.prefix_append_right_inj] at hu
    exact ⟨body, (firstCloses_iff (no_escape hQ.kind)).mpr ⟨(long_word_iff hQ).mp hw, hu⟩, rfl⟩
  · rintro ⟨body, hfirst, rfl⟩
    obtain ⟨hunits, hcloses⟩ := (firstCloses_iff (no_escape hQ.kind)).mp hfirst
    refine ⟨_, ?_, (long_word_iff hQ).mpr hunits, rfl⟩
    rwa [List.append_assoc, List.prefix_append_right_inj]

end Long

/-- A long text in quotes is accepted if and only if its body consists of escapes and characters
that are no backslash, without three quotes in a row or one at the end. No text in quotes is the
start of another that the same rule accepts, so a rule has one match at a place, which for long
texts ends at the first three quotes that are not escaped. -/
theorem quotation :
    (∀ quote, quote = '"' ∨ quote = '\'' → ∀ body,
      (table.check? ([quote, quote, quote] ++ body ++ [quote, quote, quote]) (longRule quote) =
        some true ↔ ∃ us, units? body = some us ∧ Closable quote us)) ∧
    (∀ name ∈ stringRules, ∀ u v, table.check? u name = some true →
      table.check? v name = some true → (u <+: v → u = v) ∧
        ∀ text, u <+: text → v <+: text → u = v) ∧
    (∀ name ∈ stringRules, ∀ before text n,
      table.matchAt? name (before ++ text) (byteSize before) = some (some n) ↔
        ∃ u, u <+: text ∧ table.check? u name = some true ∧ byteSize u = n) ∧
    ∀ quote, quote = '"' ∨ quote = '\'' → ∀ before text n,
      table.matchAt? (longRule quote) (before ++ ([quote, quote, quote] ++ text))
        (byteSize before) = some (some n) ↔
      ∃ body, FirstCloses quote text body ∧
        byteSize ([quote, quote, quote] ++ body ++ [quote, quote, quote]) = n := by
  refine ⟨?_, ?_, ?_, ?_⟩
  · intro quote hquote body
    obtain ⟨S, L, hQ⟩ := quotes_of hquote
    rw [← hQ.long_name, check?_iff]
    exact long_word_iff hQ
  · intro name hname u v hu hv
    obtain ⟨T, hT, rfl⟩ := mem_stringRules hname
    rw [check?_iff] at hu hv
    exact ⟨quoted_start hT hu hv, fun text => quoted_unique hT hu hv⟩
  · intro name hname before text n
    obtain ⟨T, hT, rfl⟩ := mem_stringRules hname
    rw [matchAt?_between, Option.some.injEq, quoted_leading hT]
    simp only [check?_iff]
  · intro quote hquote before text n
    obtain ⟨S, L, hQ⟩ := quotes_of hquote
    rw [← hQ.long_name, matchAt?_between, Option.some.injEq]
    exact long_leading_iff hQ

/-- Two quotes inside, an escaped one at the end, and a fourth quote behind the three that close. -/
theorem long_text_closes :
    let body := ['a', '"', '"', 'b', '\\', '"']
    table.check? (['"', '"', '"'] ++ body ++ ['"', '"', '"']) (longRule '"') = some true ∧
      table.matchAt? (longRule '"')
        (['\u00e9'] ++ (['"', '"', '"'] ++ (body ++ ['"', '"', '"', '"'])))
        (byteSize ['\u00e9']) = some (some 12) := by
  intro body
  have hunits : ∃ us, units? body = some us ∧ Closable '"' us :=
    ⟨[.plain 'a', .plain '"', .plain '"', .plain 'b', .escaped '"'], by decide, by decide,
      by decide⟩
  refine ⟨(quotation.1 '"' (Or.inl rfl) body).mpr hunits, ?_⟩
  refine (quotation.2.2.2 '"' (Or.inl rfl) ['\u00e9'] _ 12).mpr ⟨body, ?_, by decide⟩
  exact (firstCloses_iff (by decide)).mpr ⟨hunits, ⟨['"'], rfl⟩⟩

end SparqlTokens.Sparql
