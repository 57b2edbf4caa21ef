import SparqlTokens.Text.Extender
import SparqlTokens.Text.Printable
/-!
Text in quotes, on one line and with nothing invisible in it. A character that has no escape of its
own is written by its number where it could not be seen, or would join with the character before it.
-/

namespace SparqlTokens.Text

def hex (n : Nat) : List Char := Nat.toDigits 16 n

def numbered (c : Char) : List Char := '\\' :: 'u' :: '{' :: hex c.toNat ++ ['}']

def escapeLetter? : Char → Option Char
  | '\x00' => some '0'
  | '\t' => some 't'
  | '\r' => some 'r'
  | '\n' => some 'n'
  | '"' => some '"'
  | '\\' => some '\\'
  | _ => none

/-- A character as quoted text shows it. Extenders are numbered if `extenders` is set. -/
def shown (extenders : Bool) (c : Char) : List Char :=
  match escapeLetter? c with
  | some l => ['\\', l]
  | none => if (extenders && isExtender c) || !isPrintable c then numbered c else [c]

def quoted (cs : List Char) : List Char := '"' :: cs.flatMap (shown true) ++ ['"']

def shownInCell (extenders : Bool) (c : Char) : List Char :=
  if c = '\'' then ['\\', '\''] else shown extenders c

/-- Text as a table cell shows it: without quotes around it, an apostrophe escaped, and an extender
numbered only if it comes first. -/
def escaped : List Char → List Char
  | [] => []
  | c :: r => shownInCell true c ++ r.flatMap (shownInCell false)

end SparqlTokens.Text
