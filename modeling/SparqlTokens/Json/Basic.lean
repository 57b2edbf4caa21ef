import SparqlTokens.Text.Quoted
/-!
JSON values and their text. Numbers are kept as written, so that no form of a number is lost; fields
of an object stand in the order in which they are written.
-/

namespace SparqlTokens

inductive Json where
  | null
  | bool (b : Bool)
  | number (text : String)
  | string (s : String)
  | array (items : List Json)
  | object (fields : List (String × Json))
  deriving Repr

namespace Json

def nat (n : Nat) : Json := number (toString n)

def int (n : Int) : Json := number (toString n)

def escapeLetter? : Char → Option Char
  | '"' => some '"'
  | '\\' => some '\\'
  | '\x08' => some 'b'
  | '\t' => some 't'
  | '\n' => some 'n'
  | '\x0c' => some 'f'
  | '\r' => some 'r'
  | _ => none

def escapeChar (c : Char) : List Char :=
  match escapeLetter? c with
  | some l => ['\\', l]
  | none =>
    if c < ' ' then
      let digits := Text.hex c.toNat
      '\\' :: 'u' :: List.replicate (4 - digits.length) '0' ++ digits
    else [c]

def quote (s : String) : String := String.ofList ('"' :: s.toList.flatMap escapeChar ++ ['"'])

mutual

def compact : Json → String
  | null => "null"
  | bool b => if b then "true" else "false"
  | number text => text
  | string s => quote s
  | array items => "[" ++ ",".intercalate (compactItems items) ++ "]"
  | object fields => "\x7b" ++ ",".intercalate (compactFields fields) ++ "\x7d"

def compactItems : List Json → List String
  | [] => []
  | j :: js => compact j :: compactItems js

def compactFields : List (String × Json) → List String
  | [] => []
  | (k, j) :: fs => (quote k ++ ":" ++ compact j) :: compactFields fs

end

/-- Entries on lines of their own between two brackets, `indent` being that of the brackets. -/
def bracketed (left right indent : String) (entries : List String) : String :=
  match entries with
  | [] => left ++ right
  | _ =>
    let inner := "\n" ++ indent ++ "  "
    left ++ inner ++ ("," ++ inner).intercalate entries ++ "\n" ++ indent ++ right

mutual

def pretty (indent : String) : Json → String
  | null => "null"
  | bool b => if b then "true" else "false"
  | number text => text
  | string s => quote s
  | array items => bracketed "[" "]" indent (prettyItems (indent ++ "  ") items)
  | object fields => bracketed "\x7b" "\x7d" indent (prettyFields (indent ++ "  ") fields)

def prettyItems (indent : String) : List Json → List String
  | [] => []
  | j :: js => pretty indent j :: prettyItems indent js

def prettyFields (indent : String) : List (String × Json) → List String
  | [] => []
  | (k, j) :: fs => (quote k ++ ": " ++ pretty indent j) :: prettyFields indent fs

end

/-- The last field of a name in an object. -/
def field? (name : String) : Json → Option Json
  | object fields => (fields.reverse.find? (·.1 = name)).map (·.2)
  | _ => none

end Json

end SparqlTokens
