/-!
Grids: rows of cells between ruled lines. A column is as wide as its longest cell, with a blank on
either side of it.
-/

namespace SparqlTokens

namespace Grid

abbrev Row := List (List Char)

def padRight (width : Nat) (cs : List Char) : List Char :=
  cs ++ List.replicate (width - cs.length) ' '

def padLeft (width : Nat) (cs : List Char) : List Char :=
  List.replicate (width - cs.length) ' ' ++ cs

def widths (first : Row) (rows : List Row) : List Nat :=
  rows.foldl (fun ws row => ws.zipWith (fun w cell => max w cell.length) row)
    (first.map List.length)

/-- A ruled line: its two ends, what it is drawn with, and what it has between two columns. -/
def rule (stop line cross : Char) (widths : List Nat) : List Char :=
  stop :: [cross].intercalate (widths.map fun w => List.replicate (w + 2) line) ++ [stop]

def rowLine (widths : List Nat) (row : Row) : List Char :=
  '|' :: ['|'].intercalate (widths.zipWith (fun w cell => ' ' :: padRight w cell ++ [' ']) row) ++
    ['|']

def lines (heading : Row) (rows : List Row) : List (List Char) :=
  let ws := widths heading rows
  [rule '+' '-' '+' ws, rowLine ws heading, rule '+' '=' '=' ws] ++
    [rule '|' '-' '+' ws].intercalate (rows.map fun row => [rowLine ws row]) ++
    [rule '+' '-' '+' ws]

def render (heading : Row) (rows : List Row) : String :=
  String.ofList (['\n'].intercalate (lines heading rows))

end Grid

end SparqlTokens
