import SparqlTokens.Proofs.Sparql.Failures

/-! Lexical errors of the grammar: what may be wrong at a place where a token is to be cut, with the
kind and the place of the error it leads to. The first character tells which it can be. -/
namespace SparqlTokens.Sparql

attribute [local irreducible] table Terminal.rule

variable {settings : Settings} {rest r : List Char} {c : Char} {f : Failure}

/-- What may be wrong at a place where no token is cut. -/
inductive Cause where
  | quotes
  | bracket
  | backslash
  | other
  deriving DecidableEq, Repr

/-- Whether something is wrong at the start of a text, and leads to the failure `f`: a text in three
quotes or one for which its rule has no match; an angle bracket before nothing but characters of an
IRI, a colon among them; a backslash; or any other character that no token begins with here. -/
def Cause.Holds (settings : Settings) (rest : List Char) (f : Failure) : Cause → Prop
  | quotes => ∃ quote body, (quote = '"' ∨ quote = '\'') ∧
    ((rest = quote :: quote :: quote :: body ∧ NoMatch (longRule quote) rest ∧
        f = defectFailure 3 (firstDefect false body)) ∨
      (rest = quote :: body ∧ ¬ [quote, quote] <+: body ∧ NoMatch (shortRule quote) rest ∧
        f = defectFailure 1 (firstDefect true body)))
  | bracket => ∃ r, rest = '<' :: r ∧ NoMatch "IRIREF" rest ∧
    (∀ c ∈ r, Failure.isIriChar c = true) ∧ ':' ∈ r ∧ f = { kind := .unterminated }
  | backslash => ∃ r, rest = '\\' :: r ∧
    f = { kind := if r.head?.any (· ∈ Escape.localSigns) then .noMatch else .invalidEscape }
  | other => ∃ c r, rest = c :: r ∧ c ∉ ['"', '\'', '\\'] ∧ ¬ Opens settings c r ∧
    f = { kind := .noMatch }

theorem holds_quotes (hc : c = '"' ∨ c = '\'') :
    Cause.quotes.Holds settings (c :: r) f ↔ table.cut settings (c :: r) = .error f := by
  constructor
  · rintro ⟨quote, body, hquote, h⟩
    obtain ⟨S, L, hQ⟩ := quotes_of hquote
    rcases h with ⟨hrest, h⟩ | ⟨hrest, hsingle, h⟩
    · exact (cut_long hQ hrest).mpr h
    · exact (cut_short hQ hrest hsingle).mpr h
  · intro hcut
    obtain ⟨S, L, hQ⟩ := quotes_of hc
    by_cases htriple : [c, c] <+: r
    · obtain ⟨body, rfl⟩ := htriple
      exact ⟨c, body, hc, Or.inl ⟨rfl, (cut_long hQ rfl).mp hcut⟩⟩
    · exact ⟨c, r, hc, Or.inr ⟨rfl, htriple, (cut_short hQ rfl htriple).mp hcut⟩⟩

theorem holds_bracket : Cause.bracket.Holds settings ('<' :: r) f ↔
    table.cut settings ('<' :: r) = .error f := by
  rw [cut_bracket rfl]
  constructor
  · rintro ⟨s, heq, _, hall, hcolon, rfl⟩
    cases heq
    exact ⟨Bool.and_eq_true_iff.mpr ⟨List.all_eq_true.mpr hall, decide_eq_true hcolon⟩, rfl⟩
  · rintro ⟨hopen, rfl⟩
    have hmatch : NoMatch "IRIREF" ('<' :: r) := by
      apply (noMatch_iff .iriref).mpr
      rintro ⟨u, hu, hw⟩
      exact iriref_not_open hw hu hopen
    obtain ⟨hall, hcolon⟩ := Bool.and_eq_true_iff.mp hopen
    exact ⟨r, rfl, hmatch, List.all_eq_true.mp hall, of_decide_eq_true hcolon, rfl⟩

theorem holds_backslash : Cause.backslash.Holds settings ('\\' :: r) f ↔
    table.cut settings ('\\' :: r) = .error f := by
  have hstands : ¬ Stands '\\' := by
    unfold Stands
    decide
  have hopens : ¬ Opens settings '\\' r := by
    rintro (h | ⟨h, _⟩ | ⟨h, _⟩ | ⟨h, _⟩ | ⟨h, _⟩)
    · exact hstands h
    all_goals exact absurd h (by decide)
  have hkind : Failure.unmatched ('\\' :: r) =
      { kind := if r.head?.any (· ∈ Escape.localSigns) then .noMatch else .invalidEscape } := by
    rw [unmatched_other (by decide) (by decide)]
    cases r with
    | nil => rfl
    | cons d s =>
      by_cases hsign : d ∈ Escape.localSigns
      · simp [Failure.isBadLocalEscape, hsign]
      · simp [Failure.isBadLocalEscape, hsign]
  rw [cut_other rfl (by decide) (by decide) (by decide), hkind]
  constructor
  · rintro ⟨s, heq, hf⟩
    cases heq
    exact ⟨hopens, hf⟩
  · rintro ⟨_, hf⟩
    exact ⟨r, rfl, hf⟩

theorem holds_other (hd : c ≠ '"') (hs : c ≠ '\'') (ha : c ≠ '<') (hb : c ≠ '\\') :
    Cause.other.Holds settings (c :: r) f ↔ table.cut settings (c :: r) = .error f := by
  have hkind : Failure.unmatched (c :: r) = { kind := .noMatch } := by
    have hescape : Failure.isBadLocalEscape (c :: r) = false := by
      unfold Failure.isBadLocalEscape
      split
      · next h => exact absurd (List.cons.inj h).1 hb
      · next h => exact absurd (List.cons.inj h).1 hb
      · rfl
    rw [unmatched_other hd hs, hescape]
    rfl
  rw [cut_other rfl hd hs ha, hkind]
  constructor
  · rintro ⟨_, _, heq, _, hopens, hf⟩
    cases heq
    exact ⟨hopens, hf⟩
  · rintro ⟨hopens, hf⟩
    exact ⟨c, r, rfl, by simp [hd, hs, hb], hopens, hf⟩

def causeAt (c : Char) : Cause :=
  if c = '"' ∨ c = '\'' then .quotes
  else if c = '<' then .bracket
  else if c = '\\' then .backslash
  else .other

theorem holds_causeAt : (causeAt c).Holds settings (c :: r) f ↔
    table.cut settings (c :: r) = .error f := by
  unfold causeAt
  split
  · next hq => exact holds_quotes hq
  · next hq =>
    obtain ⟨hd, hs⟩ := not_or.mp hq
    split
    · next ha =>
      subst ha
      exact holds_bracket
    · next ha =>
      split
      · next hb =>
        subst hb
        exact holds_backslash
      · next hb => exact holds_other hd hs ha hb

theorem cause_of_holds {cause : Cause} (h : cause.Holds settings (c :: r) f) :
    cause = causeAt c := by
  unfold causeAt
  cases cause with
  | quotes =>
    obtain ⟨quote, body, hq, ⟨heq, _⟩ | ⟨heq, _⟩⟩ := h
    · cases heq
      rw [if_pos hq]
    · cases heq
      rw [if_pos hq]
  | bracket =>
    obtain ⟨s, heq, _⟩ := h
    cases heq
    rfl
  | backslash =>
    obtain ⟨s, heq, _⟩ := h
    cases heq
    rfl
  | other =>
    obtain ⟨_, _, heq, hc, hopens, _⟩ := h
    cases heq
    simp only [List.mem_cons, List.not_mem_nil, or_false, not_or] at hc
    have ha : c ≠ '<' := by
      rintro rfl
      have hstands : Stands '<' :=
        Or.inr (Or.inr (Or.inr (Or.inr (Or.inr (by decide)))))
      exact hopens (Or.inl hstands)
    rw [if_neg (not_or.mpr ⟨hc.1, hc.2.1⟩), if_neg ha, if_neg hc.2.2]

/-- A failure is found if and only if a cause leads to it and no other cause holds. -/
theorem cut_error_iff (hr : rest ≠ []) : table.cut settings rest = .error f ↔
    ∃ cause : Cause, cause.Holds settings rest f ∧
      ∀ (cause' : Cause) (g : Failure), cause'.Holds settings rest g → cause' = cause := by
  obtain ⟨c, r, rfl⟩ := List.exists_cons_of_ne_nil hr
  rw [← holds_causeAt]
  constructor
  · intro h
    refine ⟨causeAt c, h, ?_⟩
    intro cause' g h'
    exact cause_of_holds h'
  · rintro ⟨cause, hcause, _⟩
    rwa [← cause_of_holds hcause]

open Scan in
/-- Wherever a token is to be cut from a text, whatever the settings, there is an error of a kind at
an offset if and only if exactly one cause holds of the text ahead and leads to that failure: at the
place of the cut, or at the backslash of a bad escape as many characters ahead. -/
theorem lexical_error_iff {settings : Settings} {text : List Char} {s : Scan}
    (hs : Running table settings text s) (ha : s.ahead ≠ []) (kind : FailureKind) (offset : ℕ) :
    Text.dropBytes? s.place.offset text = some s.ahead ∧
    ((∃ e, s.step.1 = some (.error e) ∧ e.kind = kind ∧ e.offset = offset) ↔
      ∃ (cause : Cause) (f : Failure), cause.Holds settings s.ahead f ∧
        (∀ (cause' : Cause) (g : Failure), cause'.Holds settings s.ahead g → cause' = cause) ∧
        f.kind = kind ∧ offset = s.place.offset + Text.byteSize (s.ahead.take f.ahead)) := by
  have hoffset : ∀ f, (s.placeError f).offset =
      s.place.offset + Text.byteSize (s.ahead.take f.ahead) := by
    intro f
    exact Text.Place.offset_advance s.place (s.ahead.take f.ahead)
  refine ⟨?_, ?_, ?_⟩
  · rw [placed_offset hs.toPlaced, placed_text hs.toPlaced]
    exact Text.dropBytes?_byteSize_append _ _
  · rintro ⟨e, he, rfl, rfl⟩
    obtain ⟨f, hf, rfl⟩ := step_failure he
    rw [hs.table, hs.settings] at hf
    obtain ⟨cause, hcause, honly⟩ := (cut_error_iff ha).mp hf
    exact ⟨cause, f, hcause, honly, rfl, hoffset f⟩
  · rintro ⟨cause, f, hcause, honly, rfl, rfl⟩
    have hcut : table.cut settings s.ahead = .error f :=
      (cut_error_iff ha).mpr ⟨cause, hcause, honly⟩
    rw [← hs.table, ← hs.settings] at hcut
    refine ⟨s.placeError f, ?_, rfl, hoffset f⟩
    rw [step_error hcut]

open Scan in
/-- A bad escape in a text in quotes, two characters behind the opening quote. -/
theorem bad_escape_found :
    let text := ['"', 'a', '\\', 'q']
    let s := ofText table {} text
    Running table {} text s ∧ s.ahead ≠ [] ∧
      ∃ e, s.step.1 = some (.error e) ∧ e.kind = .invalidEscape ∧ e.offset = 2 := by
  intro text s
  have hs : Running table {} text s := running_start
  have ha : s.ahead ≠ [] := by decide
  have hno : NoMatch (shortRule '"') text := by
    have hclosed : ¬ ∃ k, Ending.short '"' 1 ['a', '\\', 'q'] = .closed k := by
      rintro ⟨k, hk⟩
      cases hk
    rw [short_closed_iff (by decide), ← double_quotes.short_words] at hclosed
    exact (noMatch_iff .string2).mpr hclosed
  have hholds : Cause.quotes.Holds {} s.ahead { kind := .invalidEscape, ahead := 2 } :=
    ⟨'"', ['a', '\\', 'q'], Or.inl rfl, Or.inr ⟨rfl, by decide, hno, rfl⟩⟩
  have honly : ∀ (cause' : Cause) (g : Failure), cause'.Holds {} s.ahead g → cause' = .quotes := by
    intro cause' g h'
    exact cause_of_holds h'
  refine ⟨hs, ha, ?_⟩
  exact (lexical_error_iff hs ha .invalidEscape 2).2.mpr ⟨.quotes, _, hholds, honly, rfl, rfl⟩

end SparqlTokens.Sparql
