import SparqlTokens.Listing.Grid
import SparqlTokens.Record.Token
/-!
Listings of tokens: one line a token, a JSON text, or a grid. A listing by lines ends in a line
feed, the other two do not.
-/

namespace SparqlTokens

namespace Listing

inductive Format where
  | text
  | json
  | table
  deriving DecidableEq, Repr

namespace Format

def all : List Format := [text, json, table]

def name : Format → String
  | text => "text"
  | json => "json"
  | table => "table"

def ofName? (name : String) : Option Format := all.find? (·.name = name)

end Format

def tokenLine (t : Token) : List Char :=
  Grid.padRight 8 t.start.display.toList ++ ' ' :: Grid.padRight 22 t.rule.toList ++
    ' ' :: Text.quoted t.lexeme.toList ++ ['\n']

def textListing (tokens : List Token) : String := String.ofList (tokens.flatMap tokenLine)

def valueCell : Value → List Char
  | .prefixedName label localName => label.toList ++ ' ' :: ':' :: ' ' :: localName.toList
  | .string s => Text.quoted s.toList
  | .integer n => (toString n).toList
  | .double bits => (Number.plainText bits).toList
  | .boolean b => (if b then "true" else "false").toList
  | .iri s | .var s | .langTag s | .blankNode s | .bigInteger s | .decimal s | .keyword s
  | .identifier s => s.toList

def heading : Grid.Row :=
  ["Pos".toList, "Rule".toList, "Kind".toList, "Lexeme".toList, "Value".toList]

def tokenRow (t : Token) : Grid.Row :=
  [t.start.display.toList, t.rule.toList, t.kind.display.toList, Text.escaped t.lexeme.toList,
    (t.value?.map valueCell).getD []]

def tableListing (tokens : List Token) : String :=
  if tokens.isEmpty then "(no tokens)" else Grid.render heading (tokens.map tokenRow)

def ofTokens (tokens : List Token) : Format → String
  | .text => textListing tokens
  | .json => Token.records tokens
  | .table => tableListing tokens

end Listing

end SparqlTokens
