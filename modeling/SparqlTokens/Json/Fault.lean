import SparqlTokens.Text.Place
/-!
What can be wrong with a JSON text, and where. A place is told as a line from one and the number of
bytes read in it.
-/

namespace SparqlTokens

namespace Json

inductive Flaw where
  | cutOffValue
  | cutOffObject
  | cutOffList
  | cutOffString
  | cutOffPair
  | missingColon
  | missingListComma
  | missingObjectComma
  | missingValue
  | badWord
  | badEscape
  | badNumber
  | numberTooLarge
  | controlCharacter
  | keyNotString
  | loneSurrogate
  | trailingComma
  | trailingText
  | wrongType (found wanted : String)
  | wrongValue (found wanted : String)
  | repeatedField (name : String)
  deriving DecidableEq, Repr

def Flaw.message : Flaw → String
  | cutOffValue => "EOF while parsing a value"
  | cutOffObject => "EOF while parsing an object"
  | cutOffList => "EOF while parsing a list"
  | cutOffString => "EOF while parsing a string"
  | cutOffPair => "unexpected end of hex escape"
  | missingColon => "expected `:`"
  | missingListComma => "expected `,` or `]`"
  | missingObjectComma => "expected `,` or `\x7d`"
  | missingValue => "expected value"
  | badWord => "expected ident"
  | badEscape => "invalid escape"
  | badNumber => "invalid number"
  | numberTooLarge => "number out of range"
  | controlCharacter => "control character (\\u0000-\\u001F) found while parsing a string"
  | keyNotString => "key must be a string"
  | loneSurrogate => "lone leading surrogate in hex escape"
  | trailingComma => "trailing comma"
  | trailingText => "trailing characters"
  | wrongType found wanted => "invalid type: " ++ found ++ ", expected " ++ wanted
  | wrongValue found wanted => "invalid value: " ++ found ++ ", expected " ++ wanted
  | repeatedField name => "duplicate field `" ++ name ++ "`"

/-- A flaw, the text left when it was found, and how many bytes of that text have been seen. -/
structure Fault where
  flaw : Flaw
  rest : List Char
  seen : Nat
  deriving DecidableEq, Repr

namespace Fault

def behind (flaw : Flaw) (rest : List Char) : Fault := ⟨flaw, rest, 0⟩

def atNext (flaw : Flaw) (rest : List Char) : Fault := ⟨flaw, rest, 1⟩

def offset (f : Fault) (text : List Char) : Nat :=
  min (Text.byteSize text - Text.byteSize f.rest + f.seen) (Text.byteSize text)

def message (f : Fault) (text : List Char) : String :=
  let lines := Text.LineStarts.ofText text
  let line := lines.lineOf (f.offset text)
  f.flaw.message ++ " at line " ++ toString (line + 1) ++ " column " ++
    toString (f.offset text - lines.startOf line)

end Fault

end Json

end SparqlTokens
