import SparqlTokens.Report
import SparqlTokens.Proofs.Text.LineTexts
import SparqlTokens.Proofs.Sparql.Blame

/-! Reports of lexical errors. A report finds the place of its error again, from the offset alone and
by another way than the run that met the error; the two agree, so what is marked is the character
that the error is about. -/
namespace SparqlTokens

open Text

namespace Report

theorem length_blanks (n : ℕ) : (blanks n).length = n := by
  rw [blanks, String.length_ofList, List.length_replicate]

/-- What stands to the left of the lines below the number of the source line. -/
def gutter (e : LexicalError) : String := blanks (toString e.line).length

/-- The report of an error by the line and the column that it carries, with the text of its line and
a number of marks below it. -/
def printed (e : LexicalError) (file : Option String) (line : List Char) (marks : ℕ) :
    List String :=
  [ "error[" ++ e.kind.code ++ "]: " ++ e.kind.description,
    "  --> " ++ file.getD "<input>" ++ ":" ++ toString e.line ++ ":" ++ toString e.column,
    gutter e ++ " |",
    toString e.line ++ " | " ++ String.ofList line,
    gutter e ++ " | " ++ blanks (e.column - 1) ++ String.ofList (List.replicate marks '^') ++ " " ++
      label e.kind,
    gutter e ++ " |" ] ++
  ((hint? e.kind (line.drop (e.column - 1))).map fun h => gutter e ++ " = help: " ++ h).toList

/-- A report that finds the place of its error prints the line and the column of the error. -/
theorem lines_placed {e : LexicalError} {text line : List Char} (file : Option String)
    (h : (LineStarts.ofText text).position text e.offset = ⟨e.line, e.column⟩)
    (hline : (LineStarts.ofText text).lineText text e.line = line) :
    lines e text file =
      printed e file line (underlined e.kind (line.drop (e.column - 1)).length) := by
  have hposition : (⟨e.line, e.column⟩ : Position).display =
      toString e.line ++ ":" ++ toString e.column := rfl
  simp only [lines, h, hline, hposition, printed, gutter, ← String.append_assoc]
  cases hint? e.kind (line.drop (e.column - 1)) with
  | none => rfl
  | some s => rfl

theorem underlined_within (kind : FailureKind) {left : ℕ} (h : 0 < left) :
    1 ≤ underlined kind left ∧ underlined kind left ≤ left := by
  unfold underlined
  constructor
  · exact le_max_left _ _
  · exact max_le h (min_le_right _ _)

end Report

namespace Sparql

open Report Scan

attribute [local irreducible] table

/-- A report of an error that a run hands out carries the line and the column of the error. Below
the text of that line, behind a gutter as wide as its number and as many blanks as there are
characters before the column, stand marks, at least one and none behind the line. The character
above the first is the character of the text that the offset of the error leads to. -/
theorem marks_under_cause {settings : Settings} {text : List Char} {e : LexicalError}
    (hl : text.length < 2 ^ 32 - 1) (h : Emits (ofText table settings text) (.error e))
    (file : Option String) : ∃ shown marks,
      render e text file = String.join ((printed e file shown marks).map (· ++ "\n")) ∧
      (gutter e).length = (toString e.line).length ∧ Fits ⟨e.line, e.column⟩ ∧
      IsLine text e.line shown ∧
      (∃ c r, dropBytes? e.offset text = some (c :: r) ∧ shown[e.column - 1]? = some c) ∧
      1 ≤ marks ∧ marks ≤ shown.length - (e.column - 1) := by
  obtain ⟨hposition, hfits⟩ := (positions_never_drift table settings text hl).2.2 e h
  obtain ⟨p, c, r, rfl, hend, hoffset, hcounted, _⟩ := emitted_error h
  have hline : e.line = p.count '\n' + 1 := congrArg Position.line hcounted
  have hcolumn : e.column - 1 = (lastLine p).length :=
    congrArg (fun q : Position => q.column - 1) hcounted
  obtain ⟨s, hs⟩ := LineStarts.lineText_at p hend r
  rw [← hline] at hs
  have hlines := lines_placed file hposition.symm hs
  -- the character and what follows it in its line
  have hleft : (lastLine p ++ c :: s).drop (e.column - 1) = c :: s := by
    rw [hcolumn]
    exact List.drop_left
  have hlength := congrArg List.length hleft
  rw [List.length_drop] at hlength
  obtain ⟨hsome, hwithin⟩ :=
    underlined_within e.kind (List.length_pos_of_ne_nil (List.cons_ne_nil c s))
  rw [hleft] at hlines
  refine ⟨lastLine p ++ c :: s, underlined e.kind (c :: s).length, ?_, length_blanks _, hfits,
    ?_, ⟨c, r, ?_, ?_⟩, hsome, ?_⟩
  · rw [render, hlines]
  · rw [← hs, hline]
    exact LineStarts.lineText_isLine p (c :: r)
  · rw [hoffset]
    exact dropBytes?_byteSize_append p (c :: r)
  · rw [hcolumn, List.getElem?_append_right le_rfl, Nat.sub_self]
    rfl
  · rwa [hlength]

/-- Of a bad escape there is one mark where the line ends behind the backslash. The carriage return
behind it is no part of the line. -/
theorem escape_marked_at_line_end : ∃ e : LexicalError,
    escapedReturn.length < 2 ^ 32 - 1 ∧ Emits (ofText table {} escapedReturn) (.error e) ∧
      e.line = 2 ∧ e.column = 2 ∧
      render e escapedReturn none =
        String.join ((printed e none ['é', '\\'] 1).map (· ++ "\n")) := by
  have hl : escapedReturn.length < 2 ^ 32 - 1 := by decide
  obtain ⟨shown, marks, hrender, _, _, hline, _, hsome, hwithin⟩ :=
    marks_under_cause hl escapedReturn_error none
  have hsecond : IsLine escapedReturn 2 ['é', '\\'] := by
    refine ⟨by decide, by decide, ['"', '"', '"', 'a', '\r', '\n'], ['\r'], ['\n'], rfl, ?_⟩
    exact ⟨Or.inr rfl, rfl, List.forall_mem_singleton.mpr rfl, Or.inr rfl⟩
  have hsame := hline.unique hsecond
  subst hsame
  have hone : marks = 1 := by
    simp only [List.length_cons, List.length_nil] at hwithin
    omega
  rw [hone] at hrender
  exact ⟨_, hl, escapedReturn_error, rfl, rfl, hrender⟩

end Sparql

end SparqlTokens
