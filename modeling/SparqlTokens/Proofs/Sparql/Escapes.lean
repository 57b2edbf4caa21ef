import SparqlTokens.Proofs.Sparql.Literals
import SparqlTokens.Proofs.Sparql.Quotation

/-! One reading of escapes. The rules for strings, the scanner that looks for the cause of a failure
and the decoder of values each go through a body by themselves. All three read it by the same units,
so they agree on which bodies there are, and where the first flaw of any other lies. -/
namespace SparqlTokens.Sparql

open Escape Form Scan Terminal
open Text (byteSize)
open scoped Computability

attribute [local irreducible] table Terminal.rule

/-! What a body stands for -/

/-- The character that a unit stands for. -/
inductive BodyUnit.Means : BodyUnit → Char → Prop
  | plain {c : Char} (h : c ≠ '\\') : Means (.plain c) c
  | escaped {c d : Char} (h : stringChar? c = some d) : Means (.escaped c) d

theorem BodyUnit.valid_iff {u : BodyUnit} : u.Valid ↔ ∃ c, u.Means c := by
  cases u with
  | plain c =>
    constructor
    · intro h
      exact ⟨c, .plain h⟩
    · intro hmeans
      obtain ⟨_, h⟩ := hmeans
      cases h
      assumption
  | escaped c =>
    have hvalid : (BodyUnit.escaped c).Valid ↔ (stringChar? c).isSome = true :=
      stringChar?_isSome_iff.symm
    rw [hvalid, Option.isSome_iff_exists]
    constructor
    · intro hvalid
      obtain ⟨d, hd⟩ := hvalid
      exact ⟨d, .escaped hd⟩
    · intro hmeans
      obtain ⟨d, h⟩ := hmeans
      cases h with
      | escaped hd => exact ⟨d, hd⟩

theorem BodyUnit.means_writes {u : BodyUnit} {c : Char} (h : u.Means c) : Writes u.text c := by
  cases h with
  | plain hc => exact writes_char hc
  | escaped hc => exact writes_escape hc

theorem means_all {us : List BodyUnit} (h : ∀ u ∈ us, u.Valid) :
    ∃ s, List.Forall₂ BodyUnit.Means us s := by
  induction us with
  | nil => exact ⟨[], .nil⟩
  | cons u us ih =>
    obtain ⟨hu, hus⟩ := List.forall_mem_cons.mp h
    obtain ⟨c, hc⟩ := BodyUnit.valid_iff.mp hu
    obtain ⟨s, hs⟩ := ih hus
    exact ⟨c :: s, .cons hc hs⟩

theorem valid_all {us : List BodyUnit} {s : List Char} (h : List.Forall₂ BodyUnit.Means us s) :
    ∀ u ∈ us, u.Valid := by
  induction h with
  | nil => exact List.forall_mem_nil _
  | cons hu _ ih => exact List.forall_mem_cons.mpr ⟨BodyUnit.valid_iff.mpr ⟨_, hu⟩, ih⟩

/-- Behind units, the rest of a body is unescaped by itself. -/
theorem unescape_units {us : List BodyUnit} {s : List Char}
    (h : List.Forall₂ BodyUnit.Means us s) (r : List Char) :
    unescapeString? (us.flatMap BodyUnit.text ++ r) = (unescapeString? r).map (s ++ ·) := by
  induction h with
  | nil =>
    rw [List.flatMap_nil, List.nil_append]
    exact Option.map_id'.symm
  | cons hu _ ih =>
    rw [List.flatMap_cons, List.append_assoc, BodyUnit.means_writes hu, ih, Option.map_map]
    rfl

/-- A body can be unescaped if and only if it is written with units, and then it is what they stand
for. -/
theorem unescape_iff {body s : List Char} : unescapeString? body = some s ↔
    ∃ us : List BodyUnit, body = us.flatMap BodyUnit.text ∧ List.Forall₂ BodyUnit.Means us s := by
  constructor
  · intro h
    fun_induction unescapeString? body generalizing s with
    | case1 =>
      cases h
      exact ⟨[], rfl, .nil⟩
    | case2 | case4 => cases h
    | case3 c r d hd ih =>
      obtain ⟨s, hs, rfl⟩ := Option.map_eq_some_iff.mp h
      obtain ⟨us, rfl, hus⟩ := ih hs
      exact ⟨.escaped c :: us, rfl, .cons (.escaped hd) hus⟩
    | case5 c r hlone hescape ih =>
      obtain ⟨s, hs, rfl⟩ := Option.map_eq_some_iff.mp h
      obtain ⟨us, rfl, hus⟩ := ih hs
      have hback : c ≠ '\\' := by
        intro hc
        cases hr : us.flatMap BodyUnit.text with
        | nil => exact hlone hc hr
        | cons d r => exact hescape d r hc hr
      exact ⟨.plain c :: us, rfl, .cons (.plain hback) hus⟩
  · intro hunits
    obtain ⟨us, rfl, hus⟩ := hunits
    have h := unescape_units hus []
    rw [List.append_nil] at h
    rw [h, unescapeString?, Option.map_some, List.append_nil]

theorem unescape_isSome_iff {body : List Char} : (unescapeString? body).isSome = true ↔
    ∃ us : List BodyUnit, (∀ u ∈ us, u.Valid) ∧ body = us.flatMap BodyUnit.text := by
  rw [Option.isSome_iff_exists]
  constructor
  · intro hbody
    obtain ⟨s, hs⟩ := hbody
    obtain ⟨us, hbody, hus⟩ := unescape_iff.mp hs
    exact ⟨us, valid_all hus, hbody⟩
  · intro hunits
    obtain ⟨us, hvalid, hbody⟩ := hunits
    obtain ⟨s, hs⟩ := means_all hvalid
    exact ⟨s, unescape_iff.mpr ⟨us, hbody, hs⟩⟩

theorem unescape_append {a b s : List Char} (ha : unescapeString? a = some s) :
    unescapeString? (a ++ b) = (unescapeString? b).map (s ++ ·) := by
  obtain ⟨us, rfl, hus⟩ := unescape_iff.mp ha
  exact unescape_units hus b

theorem unit_piece {w : List Char} : (∃ u : BodyUnit, u.Valid ∧ w = u.text) ↔
    (∃ c, c ≠ '\\' ∧ w = [c]) ∨ table.check? w "ECHAR" = some true := by
  have hpair : table.check? w "ECHAR" = some true ↔ ∃ c ∈ escapeSigns, w = ['\\', c] :=
    (check?_iff echar w).trans mem_escape
  rw [hpair]
  constructor
  · intro hunit
    obtain ⟨u, hu, rfl⟩ := hunit
    cases u with
    | plain c => exact Or.inl ⟨c, hu, rfl⟩
    | escaped c => exact Or.inr ⟨c, hu, rfl⟩
  · rintro (⟨c, hc, rfl⟩ | ⟨c, hc, rfl⟩)
    · exact ⟨.plain c, hc, rfl⟩
    · exact ⟨.escaped c, hc, rfl⟩

/-- A body can be unescaped if and only if it falls into characters that are no backslashes and
pairs that the rule for escapes accepts. -/
theorem unescape_pieces_iff {body : List Char} : (unescapeString? body).isSome = true ↔
    ∃ pieces : List (List Char), body = pieces.flatten ∧
      ∀ w ∈ pieces, (∃ c, c ≠ '\\' ∧ w = [c]) ∨ table.check? w "ECHAR" = some true := by
  rw [unescape_isSome_iff]
  constructor
  · intro hunits
    obtain ⟨us, hus, hbody⟩ := hunits
    refine ⟨us.map BodyUnit.text, hbody, ?_⟩
    intro w hw
    obtain ⟨u, hu, rfl⟩ := List.mem_map.mp hw
    exact unit_piece.mp ⟨u, hus u hu, rfl⟩
  · intro hpieces
    obtain ⟨pieces, rfl, hp⟩ := hpieces
    induction pieces with
    | nil => exact ⟨[], List.forall_mem_nil _, rfl⟩
    | cons w pieces ih =>
      obtain ⟨hw, hrest⟩ := List.forall_mem_cons.mp hp
      obtain ⟨u, hu, rfl⟩ := unit_piece.mpr hw
      obtain ⟨us, hus, hpieces⟩ := ih hrest
      refine ⟨u :: us, List.forall_mem_cons.mpr ⟨hu, hus⟩, ?_⟩
      rw [List.flatten_cons, List.flatMap_cons, hpieces]

/-! Flaws -/

/-- What is wrong with a body that is not written with units, and how far behind the opening quote
of a text in quotes the error about it lies: at a backslash that begins no escape, or at the quote
itself if the body ends with a backslash, which takes the closing quote with it. -/
inductive Flawed (body : List Char) : FailureKind → ℕ → Prop
  | badEscape (us : List BodyUnit) (c : Char) (r : List Char) (hus : ∀ u ∈ us, u.Valid)
      (hc : c ∉ escapeSigns) (h : body = us.flatMap BodyUnit.text ++ '\\' :: c :: r) :
      Flawed body .invalidEscape (1 + byteSize (us.flatMap BodyUnit.text))
  | dangling (us : List BodyUnit) (hus : ∀ u ∈ us, u.Valid)
      (h : body = us.flatMap BodyUnit.text ++ ['\\']) : Flawed body .unterminated 0

theorem flawed_behind {u : BodyUnit} (hu : u.Valid) {r : List Char}
    (h : ∃ kind offset, Flawed r kind offset) :
    ∃ kind offset, Flawed (u.text ++ r) kind offset := by
  obtain ⟨kind, offset, hflaw⟩ := h
  cases hflaw with
  | badEscape us c s hus hc hr =>
    refine ⟨_, _, .badEscape (u :: us) c s (List.forall_mem_cons.mpr ⟨hu, hus⟩) hc ?_⟩
    rw [hr, List.flatMap_cons, List.append_assoc]
  | dangling us hus hr =>
    refine ⟨_, _, .dangling (u :: us) (List.forall_mem_cons.mpr ⟨hu, hus⟩) ?_⟩
    rw [hr, List.flatMap_cons, List.append_assoc]

theorem unescape_none_iff {body : List Char} :
    unescapeString? body = none ↔ ∃ kind offset, Flawed body kind offset := by
  constructor
  · intro h
    fun_induction unescapeString? body with
    | case1 => cases h
    | case2 => exact ⟨_, _, .dangling [] (List.forall_mem_nil _) rfl⟩
    | case3 c r d hd ih =>
      have hvalid : (BodyUnit.escaped c).Valid := BodyUnit.valid_iff.mpr ⟨d, .escaped hd⟩
      exact flawed_behind hvalid (ih (Option.map_eq_none_iff.mp h))
    | case4 c r hd =>
      have hc : c ∉ escapeSigns := by
        rw [← stringChar?_isSome_iff, hd]
        exact Bool.false_ne_true
      exact ⟨_, _, .badEscape [] c r (List.forall_mem_nil _) hc rfl⟩
    | case5 c r hlone hescape ih =>
      have hback : c ≠ '\\' := by
        intro hc
        cases hr : r with
        | nil => exact hlone hc hr
        | cons d r => exact hescape d r hc hr
      have hvalid : (BodyUnit.plain c).Valid := hback
      exact flawed_behind hvalid (ih (Option.map_eq_none_iff.mp h))
  · intro hflaw
    obtain ⟨kind, offset, h⟩ := hflaw
    cases h with
    | badEscape us c r hus hc h =>
      obtain ⟨s, hs⟩ := means_all hus
      have hnone : stringChar? c = none := by
        rw [← Option.not_isSome_iff_eq_none, stringChar?_isSome_iff]
        exact hc
      rw [h, unescape_units hs, unescapeString?, hnone]
      rfl
    | dangling us hus h =>
      obtain ⟨s, hs⟩ := means_all hus
      rw [h, unescape_units hs]
      rfl

section Quoted

variable {quote : Char} {body : List Char}

/-! The rules for strings on one line -/

theorem mem_charUnless_unit {cs w : List Char} (hcs : '\\' ∈ cs) : w ∈ (charUnless cs).language ↔
    ∃ u : BodyUnit, u.Valid ∧ (∀ c, u = .plain c → c ∉ cs) ∧ w = u.text := by
  rw [mem_charUnless]
  constructor
  · rintro (⟨c, hc, rfl⟩ | ⟨c, hc, rfl⟩)
    · refine ⟨.plain c, ?_, ?_, rfl⟩
      · intro hback
        exact hc (hback ▸ hcs)
      · intro d hd
        cases hd
        exact hc
    · exact ⟨.escaped c, hc, nofun, rfl⟩
  · intro hunit
    obtain ⟨u, hvalid, hplain, rfl⟩ := hunit
    cases u with
    | plain c => exact Or.inl ⟨c, hplain c rfl, rfl⟩
    | escaped c => exact Or.inr ⟨c, hvalid, rfl⟩

theorem mem_charUnless_units {cs : List Char} (hcs : '\\' ∈ cs) :
    body ∈ (charUnless cs).language∗ ↔ ∃ us : List BodyUnit,
      (∀ u ∈ us, u.Valid ∧ ∀ c, u = .plain c → c ∉ cs) ∧ body = us.flatMap BodyUnit.text := by
  constructor
  · intro h
    obtain ⟨pieces, rfl, hp⟩ := Language.mem_kstar.mp h
    clear h
    induction pieces with
    | nil => exact ⟨[], List.forall_mem_nil _, rfl⟩
    | cons w pieces ih =>
      obtain ⟨hw, hrest⟩ := List.forall_mem_cons.mp hp
      obtain ⟨u, hu, hplain, rfl⟩ := (mem_charUnless_unit hcs).mp hw
      obtain ⟨us, hus, hpieces⟩ := ih hrest
      refine ⟨u :: us, List.forall_mem_cons.mpr ⟨⟨hu, hplain⟩, hus⟩, ?_⟩
      rw [List.flatten_cons, List.flatMap_cons, hpieces]
  · intro hunits
    obtain ⟨us, hus, rfl⟩ := hunits
    induction us with
    | nil => exact Language.nil_mem_kstar _
    | cons u us ih =>
      obtain ⟨⟨hu, hplain⟩, hrest⟩ := List.forall_mem_cons.mp hus
      exact kstar_append ((mem_charUnless_unit hcs).mpr ⟨u, hu, hplain, rfl⟩) (ih hrest)

/-- A text in quotes, with neither its quote nor an end of line between them, is a word of the rule
for such texts if and only if its body can be unescaped. -/
theorem short_word_iff (hplain : ∀ c ∈ body, c ∉ [quote, '\n', '\r']) :
    quote :: body ++ [quote] ∈ (short quote).language ↔
      (unescapeString? body).isSome = true := by
  rw [mem_short, unescape_isSome_iff]
  constructor
  · intro hquoted
    obtain ⟨w, hw, heq⟩ := hquoted
    have hbody : body = w := List.append_cancel_right (List.cons.inj heq).2
    rw [hbody]
    obtain ⟨us, hus, hw⟩ := (mem_charUnless_units (by simp)).mp hw
    exact ⟨us, fun u hu => (hus u hu).1, hw⟩
  · intro hunits
    obtain ⟨us, hvalid, hbody⟩ := hunits
    refine ⟨body, (mem_charUnless_units (by simp)).mpr ⟨us, ?_, hbody⟩, rfl⟩
    intro u hu
    refine ⟨hvalid u hu, ?_⟩
    rintro c rfl
    have hback : c ≠ '\\' := hvalid _ hu
    have hmem : c ∈ body := by
      rw [hbody]
      exact List.mem_flatMap_of_mem hu List.mem_cons_self
    have hc := hplain c hmem
    simp only [List.mem_cons, List.not_mem_nil, or_false, not_or] at hc ⊢
    exact ⟨hc.1, hback, hc.2⟩

/-! The scanner -/

theorem short_units {us : List BodyUnit} (hus : ∀ u ∈ us, u.Valid)
    (hplain : ∀ c ∈ us.flatMap BodyUnit.text, c ∉ [quote, '\n', '\r']) (read : ℕ) (r : List Char) :
    Ending.short quote read (us.flatMap BodyUnit.text ++ r) =
      Ending.short quote (read + (us.flatMap BodyUnit.text).length) r := by
  induction us generalizing read with
  | nil => rfl
  | cons u us ih =>
    obtain ⟨hu, hrest⟩ := List.forall_mem_cons.mp hus
    rw [List.flatMap_cons] at hplain
    obtain ⟨hhere, hthere⟩ := List.forall_mem_append.mp hplain
    rw [List.flatMap_cons, List.append_assoc]
    cases u with
    | plain c =>
      have hback : c ≠ '\\' := hu
      have hc := hhere c List.mem_cons_self
      have hnot : c ∉ [quote, '\\', '\n', '\r'] := by
        simp only [List.mem_cons, List.not_mem_nil, or_false, not_or] at hc ⊢
        exact ⟨hc.1, hback, hc.2⟩
      rw [BodyUnit.text, List.singleton_append, short_char hnot, ih hrest hthere]
      congr 1
      simp only [List.length_append, List.length_singleton]
      omega
    | escaped c =>
      have hsign : c ∈ escapeSigns := hu
      rw [BodyUnit.text, List.cons_append, List.singleton_append, short_escape hsign,
        ih hrest hthere]
      congr 1
      simp only [List.length_append, List.length_cons, List.length_nil]
      omega

theorem short_flawed (hq : quote = '"' ∨ quote = '\'') {kind : FailureKind} {offset : ℕ}
    (h : Flawed body kind offset) (hplain : ∀ c ∈ body, c ∉ [quote, '\n', '\r']) :
    ∃ f, (Ending.short quote 1 (body ++ [quote])).failure? = some f ∧ f.kind = kind ∧
      byteSize ((quote :: body ++ [quote]).take f.ahead) = offset := by
  have hwidth : quote.utf8Size = 1 := by
    rcases hq with rfl | rfl <;> decide
  cases h with
  | badEscape us c r hus hc h =>
    have hbefore : ∀ d ∈ us.flatMap BodyUnit.text, d ∉ [quote, '\n', '\r'] := by
      intro d hd
      exact hplain d (h ▸ List.mem_append_left _ hd)
    have hend : Ending.short quote 1 (body ++ [quote]) =
        .badEscape (1 + (us.flatMap BodyUnit.text).length) := by
      have hnot : ¬ (stringChar? c).isSome = true := fun hs => hc (stringChar?_isSome_iff.mp hs)
      rw [h, List.append_assoc, short_units hus hbefore, List.cons_append, List.cons_append,
        Ending.short, if_neg hnot]
    rw [hend]
    refine ⟨_, rfl, rfl, ?_⟩
    have htake : (quote :: body ++ [quote]).take (1 + (us.flatMap BodyUnit.text).length) =
        quote :: us.flatMap BodyUnit.text := by
      rw [h, Nat.add_comm, List.cons_append, List.take_succ_cons, List.append_assoc,
        List.take_left]
    rw [htake, Text.byteSize_cons, hwidth]
  | dangling us hus h =>
    have hbefore : ∀ d ∈ us.flatMap BodyUnit.text, d ∉ [quote, '\n', '\r'] := by
      intro d hd
      exact hplain d (h ▸ List.mem_append_left _ hd)
    have hsign : quote ∈ escapeSigns := by
      rcases hq with rfl | rfl <;> decide
    have hend : Ending.short quote 1 (body ++ [quote]) = .unterminated := by
      rw [h, List.append_assoc, short_units hus hbefore, List.cons_append, List.nil_append,
        short_escape hsign, Ending.short]
    rw [hend]
    exact ⟨_, rfl, rfl, rfl⟩

end Quoted

theorem items_flawed (settings : Settings) {body : List Char} {kind : FailureKind} {offset : ℕ}
    (h : Flawed body kind offset) (hplain : ∀ c ∈ body, c ∉ ['"', '\n', '\r']) :
    ∃ e rest, table.items settings ('"' :: body ++ ['"']) = .error e :: rest ∧ e.kind = kind ∧
      e.offset = offset := by
  obtain ⟨f, hf, hkind, hoffset⟩ := short_flawed (Or.inl rfl) h hplain
  have hopen : ¬ ∃ k, Ending.short '"' 1 (body ++ ['"']) = .closed k := by
    intro hclosed
    obtain ⟨k, hk⟩ := hclosed
    rw [hk] at hf
    cases hf
  rw [short_closed_iff (by decide), ← double_quotes.short_words] at hopen
  have hsingle : ¬ ['"', '"'] <+: body ++ ['"'] := by
    intro hpair
    cases body with
    | nil => exact absurd hpair (by decide)
    | cons c r =>
      obtain ⟨hc, _⟩ := List.cons_prefix_cons.mp hpair
      exact hplain c List.mem_cons_self (hc ▸ List.mem_cons_self)
  have hcut : table.cut settings ('"' :: (body ++ ['"'])) = .error f :=
    (cut_short double_quotes rfl hsingle).mpr ⟨(noMatch_iff string2).mpr hopen, short_defect hf⟩
  obtain ⟨e, rest, hitems, hkind', hoffset'⟩ := Table.items_error (List.cons_ne_nil _ _) hcut
  exact ⟨e, rest, hitems, hkind'.trans hkind, hoffset'.trans hoffset⟩

/-- On a body without quotes and ends of lines, the two rules for strings on one line accept it in
their quotes if and only if it can be unescaped; if it cannot, it has a flaw, and reading it in
quotes leads to the error about that flaw first. Any body can be unescaped if and only if it is made
of plain characters and escapes, and behind one that can be, the rest is unescaped by itself. -/
theorem escapes_read_alike :
    (∀ body : List Char, (∀ c ∈ body, c ∉ ['"', '\'', '\n', '\r']) →
      (table.check? ('"' :: body ++ ['"']) "STRING_LITERAL2" = some true ↔
        (unescapeString? body).isSome = true) ∧
      (table.check? ('\'' :: body ++ ['\'']) "STRING_LITERAL1" = some true ↔
        (unescapeString? body).isSome = true) ∧
      (unescapeString? body = none ↔ ∃ kind offset, Flawed body kind offset) ∧
      ∀ settings kind offset, Flawed body kind offset →
        ∃ e rest, table.items settings ('"' :: body ++ ['"']) = .error e :: rest ∧
          e.kind = kind ∧ e.offset = offset) ∧
    (∀ body : List Char, (unescapeString? body).isSome = true ↔
      ∃ pieces : List (List Char), body = pieces.flatten ∧
        ∀ w ∈ pieces, (∃ c, c ≠ '\\' ∧ w = [c]) ∨ table.check? w "ECHAR" = some true) ∧
    ∀ a b s : List Char, unescapeString? a = some s →
      unescapeString? (a ++ b) = (unescapeString? b).map (s ++ ·) := by
  refine ⟨?_, fun _ => unescape_pieces_iff, fun _ _ _ => unescape_append⟩
  intro body hplain
  have hdouble : ∀ c ∈ body, c ∉ ['"', '\n', '\r'] := by
    intro c hc hmem
    have hsub : ['"', '\n', '\r'] ⊆ ['"', '\'', '\n', '\r'] := by decide
    exact hplain c hc (hsub hmem)
  have hsingle : ∀ c ∈ body, c ∉ ['\'', '\n', '\r'] := by
    intro c hc hmem
    exact hplain c hc (List.mem_cons_of_mem _ hmem)
  refine ⟨?_, ?_, unescape_none_iff, ?_⟩
  · exact (check?_iff string2 _).trans (short_word_iff hdouble)
  · exact (check?_iff string1 _).trans (short_word_iff hsingle)
  · intro settings kind offset h
    exact items_flawed settings h hdouble

/-- An accented letter takes two bytes, and of two backslashes that begin no escape the first is
reported; a last backslash takes the closing quote with it. -/
theorem first_flaw_is_reported :
    (∃ e rest, table.items {} ('"' :: ['\u00e9', '\\', 't', '\\', 'q', '\\'] ++ ['"']) =
        .error e :: rest ∧ e.kind = .invalidEscape ∧ e.offset = 5) ∧
    (∃ e rest, table.items {} ('"' :: ['a', '\\'] ++ ['"']) = .error e :: rest ∧
        e.kind = .unterminated ∧ e.offset = 0) ∧
    unescapeString? (['\\', 'n'] ++ ['\\', '"']) = some ['\n', '"'] := by
  have hletter : '\u00e9' ≠ '\\' := by decide
  have hsign : 't' ∈ escapeSigns := by decide
  have hpair : Flawed ['\u00e9', '\\', 't', '\\', 'q', '\\'] .invalidEscape 5 :=
    .badEscape [.plain '\u00e9', .escaped 't'] 'q' ['\\']
      (List.forall_mem_cons.mpr ⟨hletter, List.forall_mem_singleton.mpr hsign⟩) (by decide) rfl
  have hlast : Flawed ['a', '\\'] .unterminated 0 :=
    .dangling [.plain 'a'] (List.forall_mem_singleton.mpr (show 'a' ≠ '\\' by decide)) rfl
  have hplain : ∀ c ∈ ['\u00e9', '\\', 't', '\\', 'q', '\\'], c ∉ ['"', '\'', '\n', '\r'] := by
    simp
  have hplain' : ∀ c ∈ ['a', '\\'], c ∉ ['"', '\'', '\n', '\r'] := by
    simp
  obtain ⟨_, _, _, h⟩ := escapes_read_alike.1 _ hplain
  obtain ⟨_, _, _, h'⟩ := escapes_read_alike.1 _ hplain'
  refine ⟨h {} _ _ hpair, h' {} _ _ hlast, ?_⟩
  rw [escapes_read_alike.2.2 ['\\', 'n'] ['\\', '"'] ['\n'] rfl]
  rfl

end SparqlTokens.Sparql
