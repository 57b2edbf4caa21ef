import SparqlTokens.Lexing.LexicalError
import SparqlTokens.Text.Quoted
/-!
Reports of lexical errors for people: the source line with the fault underlined, and a hint. The
place is found from the error's offset, so an error kept apart from its run still points into the
text.
-/

namespace SparqlTokens

namespace Report

def blanks (n : Nat) : String := String.ofList (List.replicate n ' ')

/-- Digits of a number in upper-case hexadecimal, at least four. -/
def codePoint (c : Char) : String :=
  let digits := (Text.hex c.toNat).map Char.toUpper
  String.ofList (List.replicate (4 - digits.length) '0' ++ digits)

def isVisibleAscii (c : Char) : Bool := '!' ≤ c && c ≤ '~'

def closer : List Char → Option String
  | [] => none
  | '<' :: _ => some ">"
  | q :: r => some (String.ofList (if r.take 2 = [q, q] then [q, q, q] else [q]))

def hint? (kind : FailureKind) (rest : List Char) : Option String :=
  match kind with
  | .noMatch => rest.head?.map fun c =>
    if isVisibleAscii c then "no SPARQL token starts with `" ++ c.toString ++ "`"
    else "no SPARQL token starts with U+" ++ codePoint c ++ " (" ++
      String.ofList (Text.numbered c) ++ ")"
  | .unterminated => (closer rest).map fun s => "close the literal with `" ++ s ++ "`"
  | .invalidEscape =>
    some ("valid escapes are \\t \\b \\n \\r \\f \\\" \\' \\\\ in strings, and \\ before one of " ++
      "_~.-!$&'()*+,;=/?#@% in local names")

def label : FailureKind → String
  | .noMatch => "unexpected character"
  | .unterminated => "literal starts here"
  | .invalidEscape => "invalid escape"

/-- How many of the characters left in the line are underlined; at least one mark is always set. -/
def underlined (kind : FailureKind) (left : Nat) : Nat :=
  let wanted := match kind with
    | .noMatch => 1
    | .unterminated => left
    | .invalidEscape => 2
  max 1 (min wanted left)

def lines (e : LexicalError) (source : List Char) (file : Option String) : List String :=
  let starts := Text.LineStarts.ofText source
  let position := starts.position source e.offset
  let line := starts.lineText source position.line
  let rest := line.drop (position.column - 1)
  let number := toString position.line
  let gutter := blanks number.length
  let marks := String.ofList (List.replicate (underlined e.kind rest.length) '^')
  [ "error[" ++ e.kind.code ++ "]: " ++ e.kind.description,
    "  --> " ++ file.getD "<input>" ++ ":" ++ position.display,
    gutter ++ " |",
    number ++ " | " ++ String.ofList line,
    gutter ++ " | " ++ blanks (position.column - 1) ++ marks ++ " " ++ label e.kind,
    gutter ++ " |" ] ++
  match hint? e.kind rest with
  | some h => [gutter ++ " = help: " ++ h]
  | none => []

def render (e : LexicalError) (source : List Char) (file : Option String) : String :=
  String.join ((lines e source file).map (· ++ "\n"))

def renderAll (errors : List LexicalError) (source : List Char) (file : Option String) : String :=
  "\n".intercalate (errors.map fun e => render e source file)

end Report

end SparqlTokens
