import SparqlTokens.Lexing.Failure
import SparqlTokens.Proofs.Sparql.Terminals

/-! Texts in quotes. The scanners that look for the cause of a failure find closing quotes if and
only if the rule for such texts has a match, and where they find none they stop at the first defect
of the body. -/
namespace SparqlTokens.Sparql

open Form
open scoped Computability

theorem kstar_append {l : Language Char} {u v : List Char} (hu : u ∈ l) (hv : v ∈ l∗) :
    u ++ v ∈ l∗ := by
  obtain ⟨pieces, rfl, hp⟩ := Language.mem_kstar.mp hv
  exact Language.mem_kstar.mpr ⟨u :: pieces, rfl, List.forall_mem_cons.mpr ⟨hu, hp⟩⟩

theorem stringChar?_isSome_iff {c : Char} :
    (Escape.stringChar? c).isSome = true ↔ c ∈ escapeSigns := by
  unfold Escape.stringChar?
  split
  all_goals simp_all [escapeSigns]

theorem mem_escape {w : List Char} : w ∈ escape.language ↔ ∃ c ∈ escapeSigns, w = ['\\', c] := by
  constructor
  · intro h
    obtain ⟨u, hu, v, ⟨c, hc, rfl⟩, rfl⟩ := Language.mem_mul.mp h
    rw [show u = ['\\'] from hu]
    exact ⟨c, mem_among.mp hc, rfl⟩
  · rintro ⟨c, hc, rfl⟩
    exact Language.mem_mul.mpr ⟨['\\'], rfl, [c], ⟨c, mem_among.mpr hc, rfl⟩, rfl⟩

theorem mem_charUnless {cs w : List Char} : w ∈ (charUnless cs).language ↔
    (∃ c, c ∉ cs ∧ w = [c]) ∨ ∃ c ∈ escapeSigns, w = ['\\', c] := by
  have hset : w ∈ (Expression.set (among cs).compl).language ↔ ∃ c, c ∉ cs ∧ w = [c] := by
    constructor
    · rintro ⟨c, hc, rfl⟩
      exact ⟨c, mem_among_compl.mp hc, rfl⟩
    · rintro ⟨c, hc, rfl⟩
      exact ⟨c, mem_among_compl.mpr hc, rfl⟩
  rw [charUnless, oneOf, Expression.mem_ofBranches]
  simp only [List.mem_cons, List.not_mem_nil, or_false, exists_eq_or_imp, exists_eq_left, hset,
    mem_escape]

theorem mem_between {a b : List Char} {e : Expression} {w : List Char} :
    w ∈ (row [.text a, many e, .text b]).language ↔ ∃ body ∈ e.language∗, w = a ++ body ++ b := by
  have hform : (row [.text a, many e, .text b]).language = {a} * ((many e).language * {b}) := rfl
  rw [hform, many, Expression.language_many]
  constructor
  · intro h
    obtain ⟨u, rfl, v, hv, rfl⟩ := Language.mem_mul.mp h
    obtain ⟨body, hbody, t, rfl, rfl⟩ := Language.mem_mul.mp hv
    exact ⟨body, hbody, (List.append_assoc _ _ _).symm⟩
  · rintro ⟨body, hbody, rfl⟩
    rw [List.append_assoc]
    exact Language.append_mem_mul rfl (Language.append_mem_mul hbody rfl)

theorem mem_short {quote : Char} {w : List Char} : w ∈ (short quote).language ↔
    ∃ body ∈ (charUnless [quote, '\\', '\n', '\r']).language∗, w = quote :: body ++ [quote] :=
  mem_between

theorem mem_long {quote : Char} {w : List Char} : w ∈ (long quote).language ↔
    ∃ body ∈ (longPart quote).language∗,
      w = [quote, quote, quote] ++ body ++ [quote, quote, quote] :=
  mem_between

/-! Closing quotes -/

section Closing

variable {quote : Char} {read : ℕ}

theorem short_escape {c : Char} {r : List Char} (hc : c ∈ escapeSigns) :
    Ending.short quote read ('\\' :: c :: r) = Ending.short quote (read + 2) r := by
  rw [Ending.short, if_pos (stringChar?_isSome_iff.mpr hc)]

theorem short_char {c : Char} {r : List Char} (hc : c ∉ [quote, '\\', '\n', '\r']) :
    Ending.short quote read (c :: r) = Ending.short quote (read + 1) r := by
  simp only [List.mem_cons, List.not_mem_nil, or_false, not_or] at hc
  obtain ⟨hquote, hback, hfeed, hreturn⟩ := hc
  rw [Ending.short]
  · rw [if_neg hquote, if_neg (not_or.mpr ⟨hfeed, hreturn⟩)]
  · exact fun h _ => hback h
  · exact fun d s h _ => hback h

theorem short_quote {r : List Char} (hq : quote ≠ '\\') :
    Ending.short quote read (quote :: r) = .closed read := by
  rw [Ending.short]
  · rw [if_pos rfl]
  · exact fun h _ => hq h
  · exact fun d s h _ => hq h

theorem short_complete (hq : quote ≠ '\\') {pieces : List (List Char)} {rest : List Char}
    (h : ∀ u ∈ pieces, u ∈ (charUnless [quote, '\\', '\n', '\r']).language) :
    Ending.short quote read (pieces.flatten ++ quote :: rest) =
      .closed (read + pieces.flatten.length) := by
  induction pieces generalizing read with
  | nil => exact short_quote hq
  | cons u pieces ih =>
    have hrest := fun v hv => h v (List.mem_cons_of_mem u hv)
    rw [List.flatten_cons, List.append_assoc, List.length_append, ← Nat.add_assoc]
    rcases mem_charUnless.mp (h u List.mem_cons_self) with ⟨c, hc, rfl⟩ | ⟨c, hc, rfl⟩
    · rw [List.singleton_append, short_char hc]
      exact ih hrest
    · rw [List.cons_append, List.singleton_append, short_escape hc]
      exact ih hrest

theorem short_sound {text : List Char} {k : ℕ} (h : Ending.short quote read text = .closed k) :
    ∃ body ∈ (charUnless [quote, '\\', '\n', '\r']).language∗, ∃ rest,
      text = body ++ quote :: rest := by
  fun_induction Ending.short quote read text with
  | case1 | case2 | case4 | case6 => cases h
  | case3 read c r hc ih =>
    obtain ⟨body, hbody, rest, rfl⟩ := ih h
    have hunit : ['\\', c] ∈ (charUnless [quote, '\\', '\n', '\r']).language :=
      mem_charUnless.mpr (Or.inr ⟨c, stringChar?_isSome_iff.mp hc, rfl⟩)
    exact ⟨['\\', c] ++ body, kstar_append hunit hbody, rest, rfl⟩
  | case5 read r _ _ => exact ⟨[], Language.nil_mem_kstar _, r, rfl⟩
  | case7 read c r hlone hescape hquote hline ih =>
    obtain ⟨body, hbody, rest, rfl⟩ := ih h
    have hback : c ≠ '\\' := by
      rintro rfl
      cases body with
      | nil => exact hescape quote rest rfl rfl
      | cons d body => exact hescape d (body ++ quote :: rest) rfl rfl
    have hunit : [c] ∈ (charUnless [quote, '\\', '\n', '\r']).language := by
      refine mem_charUnless.mpr (Or.inl ⟨c, ?_, rfl⟩)
      simp only [List.mem_cons, List.not_mem_nil, or_false, not_or]
      exact ⟨hquote, hback, not_or.mp hline⟩
    exact ⟨[c] ++ body, kstar_append hunit hbody, rest, rfl⟩

/-- The scanner for one line finds a closing quote if and only if the rule has a match. -/
theorem short_closed_iff (hq : quote ≠ '\\') {text : List Char} :
    (∃ k, Ending.short quote read text = .closed k) ↔
      ∃ u, u <+: quote :: text ∧ u ∈ (short quote).language := by
  constructor
  · rintro ⟨k, h⟩
    obtain ⟨body, hbody, rest, rfl⟩ := short_sound h
    refine ⟨quote :: body ++ [quote], ⟨rest, ?_⟩, mem_short.mpr ⟨body, hbody, rfl⟩⟩
    simp
  · rintro ⟨u, ⟨rest, hrest⟩, hu⟩
    obtain ⟨body, hbody, rfl⟩ := mem_short.mp hu
    obtain ⟨pieces, rfl, hp⟩ := Language.mem_kstar.mp hbody
    have htext : text = pieces.flatten ++ quote :: rest := by
      simpa using (List.cons.inj hrest).2.symm
    rw [htext]
    exact ⟨_, short_complete hq hp⟩

theorem long_escape {c : Char} {r : List Char} (hc : c ∈ escapeSigns) :
    Ending.long quote read ('\\' :: c :: r) = Ending.long quote (read + 2) r := by
  rw [Ending.long, if_pos (stringChar?_isSome_iff.mpr hc)]

theorem long_char {c : Char} {r : List Char} (hback : c ≠ '\\')
    (hc : ¬ (c = quote ∧ r.take 2 = [quote, quote])) :
    Ending.long quote read (c :: r) = Ending.long quote (read + 1) r := by
  rw [Ending.long]
  · rw [if_neg hc]
  · exact fun h _ => hback h
  · exact fun d s h _ => hback h

theorem long_quotes {r : List Char} (hq : quote ≠ '\\') :
    Ending.long quote read (quote :: quote :: quote :: r) = .closed read := by
  rw [Ending.long]
  · rw [if_pos ⟨rfl, rfl⟩]
  · exact fun h _ => hq h
  · exact fun d s h _ => hq h

theorem long_unit {u r : List Char} (hu : u ∈ (charUnless [quote, '\\']).language) (read : ℕ) :
    Ending.long quote read (u ++ r) = Ending.long quote (read + u.length) r := by
  rcases mem_charUnless.mp hu with ⟨c, hc, rfl⟩ | ⟨c, hc, rfl⟩
  · simp only [List.mem_cons, List.not_mem_nil, or_false, not_or] at hc
    exact long_char hc.2 fun h => hc.1 h.1
  · exact long_escape hc

theorem unit_head (hq : quote ≠ '\\') {cs u : List Char} (hcs : quote ∈ cs)
    (hu : u ∈ (charUnless cs).language) : ∃ c v, u = c :: v ∧ c ≠ quote := by
  rcases mem_charUnless.mp hu with ⟨c, hc, rfl⟩ | ⟨c, hc, rfl⟩
  · refine ⟨c, [], rfl, ?_⟩
    rintro rfl
    exact hc hcs
  · exact ⟨'\\', [c], rfl, hq.symm⟩

/-- A text in single quotes does not begin with three quotes, unless a quote follows it. -/
theorem short_before (hq : quote ≠ '\\') {w v : List Char} (hw : quote :: w ∈ (short quote).language)
    (hv : v.head? ≠ some quote) : ¬ [quote, quote] <+: w ++ v := by
  obtain ⟨body, hbody, heq⟩ := mem_short.mp hw
  obtain ⟨pieces, rfl, hp⟩ := Language.mem_kstar.mp hbody
  rw [(List.cons.inj heq).2]
  intro h
  cases pieces with
  | nil =>
    have hquote : [quote] <+: v := (List.cons_prefix_cons.mp h).2
    obtain ⟨r, rfl⟩ := hquote
    exact hv rfl
  | cons u pieces =>
    obtain ⟨c, x, rfl, hc⟩ := unit_head hq List.mem_cons_self (hp u List.mem_cons_self)
    exact hc (List.cons_prefix_cons.mp h).1.symm

theorem mem_longPart {w : List Char} : w ∈ (longPart quote).language ↔
    ∃ u ∈ (charUnless [quote, '\\']).language,
      w = u ∨ w = quote :: u ∨ w = quote :: quote :: u := by
  have hquotes : ∀ v, v ∈ (Form.optional (oneOf [.text [quote], .text [quote, quote]])).language ↔
      v = [] ∨ v = [quote] ∨ v = [quote, quote] := by
    intro v
    rw [Form.optional, Expression.mem_optional, oneOf, Expression.mem_ofBranches]
    simp only [List.mem_cons, List.not_mem_nil, or_false, exists_eq_or_imp, exists_eq_left]
    exact Iff.rfl
  constructor
  · intro h
    obtain ⟨v, hv, u, hu, rfl⟩ := Language.mem_mul.mp h
    refine ⟨u, hu, ?_⟩
    rcases (hquotes v).mp hv with rfl | rfl | rfl
    · exact Or.inl rfl
    · exact Or.inr (Or.inl rfl)
    · exact Or.inr (Or.inr rfl)
  · rintro ⟨u, hu, rfl | rfl | rfl⟩
    · exact Language.append_mem_mul ((hquotes []).mpr (Or.inl rfl)) hu
    · exact Language.append_mem_mul ((hquotes [quote]).mpr (Or.inr (Or.inl rfl))) hu
    · exact Language.append_mem_mul ((hquotes [quote, quote]).mpr (Or.inr (Or.inr rfl))) hu

theorem long_complete (hq : quote ≠ '\\') {pieces : List (List Char)} {rest : List Char}
    (h : ∀ u ∈ pieces, u ∈ (longPart quote).language) :
    Ending.long quote read (pieces.flatten ++ [quote, quote, quote] ++ rest) =
      .closed (read + pieces.flatten.length) := by
  induction pieces generalizing read with
  | nil => exact long_quotes hq
  | cons w pieces ih =>
    have hrest := fun v hv => h v (List.mem_cons_of_mem w hv)
    obtain ⟨u, hu, hw⟩ := mem_longPart.mp (h w List.mem_cons_self)
    rw [List.flatten_cons, List.append_assoc, List.append_assoc, ← List.append_assoc pieces.flatten,
      List.length_append]
    obtain ⟨c, v, hcv, hc⟩ := unit_head hq List.mem_cons_self hu
    -- a quote before the unit is not the first of three
    have one : ∀ n r, Ending.long quote n (quote :: (u ++ r)) =
        Ending.long quote (n + 1 + u.length) r := by
      intro n r
      rw [long_char hq, long_unit hu]
      rintro ⟨_, htake⟩
      rw [hcv] at htake
      exact hc (List.cons.inj htake).1
    rcases hw with rfl | rfl | rfl
    · rw [long_unit hu, ih hrest, Nat.add_assoc]
    · rw [List.cons_append, one, ih hrest, List.length_cons]
      congr 1
      omega
    · rw [List.cons_append, List.cons_append, long_char hq]
      · rw [one, ih hrest, List.length_cons, List.length_cons]
        congr 1
        omega
      · rintro ⟨_, htake⟩
        rw [hcv] at htake
        exact hc (List.cons.inj (List.cons.inj htake).2).1

theorem long_sound (hq : quote ≠ '\\') {text : List Char} {k : ℕ}
    (h : Ending.long quote read text = .closed k) :
    ∃ body ∈ (longPart quote).language∗, ∃ rest,
      text = body ++ [quote, quote, quote] ++ rest := by
  fun_induction Ending.long quote read text with
  | case1 | case2 | case4 => cases h
  | case3 read c r hc ih =>
    obtain ⟨body, hbody, rest, rfl⟩ := ih h
    have hunit : ['\\', c] ∈ (charUnless [quote, '\\']).language :=
      mem_charUnless.mpr (Or.inr ⟨c, stringChar?_isSome_iff.mp hc, rfl⟩)
    have hpart := mem_longPart.mpr ⟨_, hunit, Or.inl rfl⟩
    exact ⟨['\\', c] ++ body, kstar_append hpart hbody, rest, rfl⟩
  | case5 read c r _ _ hclose =>
    obtain ⟨rfl, htake⟩ := hclose
    refine ⟨[], Language.nil_mem_kstar _, r.drop 2, ?_⟩
    rw [← htake]
    simp
  | case6 read c r hlone hescape hopen ih =>
    obtain ⟨body, hbody, rest, rfl⟩ := ih h
    have hback : c ≠ '\\' := by
      rintro rfl
      cases body with
      | nil => exact hescape quote (quote :: quote :: rest) rfl rfl
      | cons d body => exact hescape d (body ++ [quote, quote, quote] ++ rest) rfl rfl
    by_cases hc : c = quote
    · -- the quote joins the part behind it, which has at most one quote of its own
      subst hc
      obtain ⟨pieces, rfl, hp⟩ := Language.mem_kstar.mp hbody
      cases pieces with
      | nil => exact absurd ⟨rfl, rfl⟩ hopen
      | cons w pieces =>
        obtain ⟨u, hu, hw⟩ := mem_longPart.mp (hp w List.mem_cons_self)
        have hpieces : pieces.flatten ∈ (longPart c).language∗ :=
          Language.mem_kstar.mpr ⟨pieces, rfl, fun v hv => hp v (List.mem_cons_of_mem w hv)⟩
        have hpart : c :: w ∈ (longPart c).language := by
          rcases hw with rfl | rfl | rfl
          · exact mem_longPart.mpr ⟨w, hu, Or.inr (Or.inl rfl)⟩
          · exact mem_longPart.mpr ⟨u, hu, Or.inr (Or.inr rfl)⟩
          · exact absurd ⟨rfl, rfl⟩ hopen
        exact ⟨(c :: w) ++ pieces.flatten, kstar_append hpart hpieces, rest, rfl⟩
    · have hunit : [c] ∈ (charUnless [quote, '\\']).language := by
        refine mem_charUnless.mpr (Or.inl ⟨c, ?_, rfl⟩)
        simp only [List.mem_cons, List.not_mem_nil, or_false, not_or]
        exact ⟨hc, hback⟩
      have hpart := mem_longPart.mpr ⟨_, hunit, Or.inl rfl⟩
      exact ⟨[c] ++ body, kstar_append hpart hbody, rest, rfl⟩

theorem long_closed_iff (hq : quote ≠ '\\') {text : List Char} :
    (∃ k, Ending.long quote read text = .closed k) ↔
      ∃ u, u <+: quote :: quote :: quote :: text ∧ u ∈ (long quote).language := by
  constructor
  · rintro ⟨k, h⟩
    obtain ⟨body, hbody, rest, rfl⟩ := long_sound hq h
    refine ⟨[quote, quote, quote] ++ body ++ [quote, quote, quote], ⟨rest, ?_⟩,
      mem_long.mpr ⟨body, hbody, rfl⟩⟩
    simp
  · rintro ⟨u, ⟨rest, hrest⟩, hu⟩
    obtain ⟨body, hbody, rfl⟩ := mem_long.mp hu
    obtain ⟨pieces, rfl, hp⟩ := Language.mem_kstar.mp hbody
    have htext : text = pieces.flatten ++ [quote, quote, quote] ++ rest := by
      simpa using hrest.symm
    rw [htext]
    exact ⟨_, long_complete hq hp⟩

end Closing

/-! The first defect -/

/-- Where the first defect of the body of a quoted text lies, read by units: the number of
characters before a backslash that begins no escape, or none if the text ends first, or its line if
it has to stay within one. -/
def firstDefect (oneLine : Bool) : List Char → Option ℕ
  | [] | ['\\'] => none
  | '\\' :: c :: r => if c ∈ escapeSigns then (firstDefect oneLine r).map (· + 2) else some 0
  | c :: r =>
    if oneLine ∧ (c = '\n' ∨ c = '\r') then none else (firstDefect oneLine r).map (· + 1)

/-- The failure of a quoted text with a first defect, behind `opening` characters. -/
def defectFailure (opening : ℕ) : Option ℕ → Failure
  | none => { kind := .unterminated }
  | some n => { kind := .invalidEscape, ahead := opening + n }

theorem defectFailure_map (opening n : ℕ) (d : Option ℕ) :
    defectFailure opening (d.map (· + n)) = defectFailure (opening + n) d := by
  cases d with
  | none => rfl
  | some m => simp only [defectFailure, Option.map_some]; congr 1; omega

section Defect

variable {quote : Char} {read : ℕ} {text : List Char} {f : Failure}

theorem short_defect (h : (Ending.short quote read text).failure? = some f) :
    f = defectFailure read (firstDefect true text) := by
  fun_induction Ending.short quote read text with
  | case1 | case2 => cases h; rfl
  | case3 read c r hc ih =>
    rw [firstDefect, if_pos (stringChar?_isSome_iff.mp hc), defectFailure_map]
    exact ih h
  | case4 read c r hc =>
    rw [firstDefect, if_neg fun hmem => hc (stringChar?_isSome_iff.mpr hmem)]
    cases h
    rfl
  | case5 => cases h
  | case6 read c r hlone hescape hquote hline =>
    rw [firstDefect, if_pos ⟨rfl, hline⟩]
    · cases h; rfl
    · exact hlone
    · exact hescape
  | case7 read c r hlone hescape hquote hline ih =>
    rw [firstDefect, if_neg fun hl => hline hl.2, defectFailure_map]
    · exact ih h
    · exact hlone
    · exact hescape

theorem long_defect (h : (Ending.long quote read text).failure? = some f) :
    f = defectFailure read (firstDefect false text) := by
  fun_induction Ending.long quote read text with
  | case1 | case2 => cases h; rfl
  | case3 read c r hc ih =>
    rw [firstDefect, if_pos (stringChar?_isSome_iff.mp hc), defectFailure_map]
    exact ih h
  | case4 read c r hc =>
    rw [firstDefect, if_neg fun hmem => hc (stringChar?_isSome_iff.mpr hmem)]
    cases h
    rfl
  | case5 => cases h
  | case6 read c r hlone hescape hopen ih =>
    rw [firstDefect, if_neg fun hl => Bool.false_ne_true hl.1, defectFailure_map]
    · exact ih h
    · exact hlone
    · exact hescape

end Defect

end SparqlTokens.Sparql
