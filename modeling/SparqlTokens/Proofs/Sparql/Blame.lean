import SparqlTokens.Proofs.Lexing.Positions
import SparqlTokens.Proofs.Sparql.Errors

/-! The character that a lexical error is about. It is a quote, a bracket, a backslash or a character
that no token begins with, so it never ends a line, and the error has the place of that character,
even where it lies lines ahead of the token that was tried. -/
namespace SparqlTokens.Sparql

attribute [local irreducible] table Terminal.rule

theorem defect_backslash {oneLine : Bool} {body : List Char} {n : ℕ}
    (h : firstDefect oneLine body = some n) : body[n]? = some '\\' := by
  fun_induction firstDefect oneLine body generalizing n with
  | case1 | case2 => cases h
  | case3 c r hc ih =>
    obtain ⟨m, hm, rfl⟩ := Option.map_eq_some_iff.mp h
    exact ih hm
  | case4 c r hc =>
    cases h
    rfl
  | case5 => cases h
  | case6 c r hlone hescape hline ih =>
    obtain ⟨m, hm, rfl⟩ := Option.map_eq_some_iff.mp h
    exact ih hm

/-- A failure of a text in quotes is about its first quote or about a backslash in it. -/
theorem blamed_quoted {quote : Char} (opening : List Char) (hopening : opening.head? = some quote)
    {body : List Char} (d : Option ℕ) (hd : ∀ n, d = some n → body[n]? = some '\\') :
    ∃ c, (opening ++ body)[(defectFailure opening.length d).ahead]? = some c ∧
      (c = quote ∨ c = '\\') := by
  cases d with
  | none =>
    refine ⟨quote, ?_, Or.inl rfl⟩
    obtain ⟨r, rfl⟩ := List.head?_eq_some_iff.mp hopening
    rfl
  | some n =>
    refine ⟨'\\', ?_, Or.inr rfl⟩
    have hinside : (opening ++ body)[opening.length + n]? = some '\\' := by
      rw [List.getElem?_append_right (Nat.le_add_right _ _), Nat.add_sub_cancel_left, hd n rfl]
    exact hinside

/-- A failure is about a character that does not end a line. -/
theorem blamed_char {settings : Settings} {rest : List Char} {f : Failure} (hr : rest ≠ [])
    (h : table.cut settings rest = .error f) :
    ∃ c, rest[f.ahead]? = some c ∧ Text.LineStarts.isLineEnd c = false := by
  have quotes : ∀ q c : Char, q = '"' ∨ q = '\'' → c = q ∨ c = '\\' →
      Text.LineStarts.isLineEnd c = false := by
    rintro q c (rfl | rfl) (rfl | rfl) <;> rfl
  obtain ⟨cause, hcause, _⟩ := (cut_error_iff hr).mp h
  cases cause with
  | quotes =>
    obtain ⟨quote, body, hq, ⟨rfl, _, rfl⟩ | ⟨rfl, _, _, rfl⟩⟩ := hcause
    · obtain ⟨c, hc, hkind⟩ := blamed_quoted [quote, quote, quote] rfl
        (firstDefect false body) (fun _ => defect_backslash)
      exact ⟨c, hc, quotes quote c hq hkind⟩
    · obtain ⟨c, hc, hkind⟩ := blamed_quoted [quote] rfl
        (firstDefect true body) (fun _ => defect_backslash)
      exact ⟨c, hc, quotes quote c hq hkind⟩
  | bracket =>
    obtain ⟨r, rfl, _, _, _, rfl⟩ := hcause
    exact ⟨'<', rfl, rfl⟩
  | backslash =>
    obtain ⟨r, rfl, rfl⟩ := hcause
    exact ⟨'\\', rfl, rfl⟩
  | other =>
    obtain ⟨c, r, rfl, _, hopens, rfl⟩ := hcause
    refine ⟨c, rfl, ?_⟩
    -- an end of line is whitespace, and that begins a token
    by_contra hend
    have hblank : c ∈ [' ', '\t', '\r', '\n'] := by
      by_cases hfeed : c = '\n'
      · rw [hfeed]
        decide
      · have hreturn : c = '\r' := by simpa [Text.LineStarts.isLineEnd, hfeed] using hend
        rw [hreturn]
        decide
    exact hopens (Or.inl (Or.inr (Or.inr (Or.inr (Or.inl hblank)))))

open Scan Text in
/-- An error that a run hands out has the place and the window of a character of the text that does
not end a line. -/
theorem emitted_error {settings : Settings} {text : List Char} {e : LexicalError}
    (h : Emits (ofText table settings text) (.error e)) :
    ∃ p c r, text = p ++ c :: r ∧ LineStarts.isLineEnd c = false ∧ e.offset = byteSize p ∧
      (⟨e.line, e.column⟩ : Position) = counted p ∧
      e.snippet = String.ofList (LexicalError.window settings.snippetRadius p.reverse (c :: r)) := by
  obtain ⟨s, hs, hgoes, hi⟩ := emitted_running h
  obtain ⟨f, hf, rfl⟩ := step_failure hi
  rw [hs.table, hs.settings] at hf
  obtain ⟨c, hc, hend⟩ := blamed_char (not_or.mp hgoes).2 hf
  have hthere := placed_advance hs.toPlaced f.ahead
  have hahead : (s.advance f.ahead).ahead = c :: s.ahead.drop (f.ahead + 1) := by
    obtain ⟨hlt, rfl⟩ := List.getElem?_eq_some_iff.mp hc
    exact List.drop_eq_getElem_cons hlt
  have hplace := hthere.place
  rw [advance_counts] at hplace
  refine ⟨(s.advance f.ahead).passed.reverse, c, s.ahead.drop (f.ahead + 1), ?_, hend, ?_, ?_, ?_⟩
  · rw [← hahead]
    exact placed_text hthere
  · exact placed_offset hthere
  · rw [placeError, hplace]
  · rw [List.reverse_reverse, ← hahead, ← hs.settings]
    rfl

/-- A text in three quotes of which the second line ends in a backslash before its carriage
return. -/
def escapedReturn : List Char := ['"', '"', '"', 'a', '\r', '\n', 'é', '\\', '\r', '\n']

open Scan in
theorem escapedReturn_error : Emits (ofText table {} escapedReturn)
    (.error ⟨.invalidEscape, 8, 2, 2, String.ofList ['é', '\\']⟩) := by
  have hopen : ¬ ∃ k, Ending.long '"' 3 (escapedReturn.drop 3) = .closed k := by
    rintro ⟨k, hk⟩
    cases hk
  rw [long_closed_iff (by decide), ← double_quotes.long_words] at hopen
  have hcut : table.cut {} escapedReturn = .error { kind := .invalidEscape, ahead := 7 } :=
    (cut_long double_quotes rfl).mpr ⟨(noMatch_iff .stringLong2).mpr hopen, rfl⟩
  apply emits_first
  · exact not_or.mpr ⟨Bool.false_ne_true, List.cons_ne_nil _ _⟩
  · exact congrArg Prod.fst (step_error (s := ofText table {} escapedReturn) hcut)

end SparqlTokens.Sparql
