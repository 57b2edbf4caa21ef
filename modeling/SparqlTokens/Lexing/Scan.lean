import SparqlTokens.Lexing.LexicalError
import SparqlTokens.Lexing.Selection
import SparqlTokens.Lexing.Settings
import SparqlTokens.Token.Basic
/-!
Reading a text token by token. A scan holds the text behind it and the text ahead; each step cuts a
token off the front of the text ahead, or reports an error and skips to the character behind its
cause. What a step cuts depends on the text ahead alone.
-/

namespace SparqlTokens

structure Cut where
  kind : Kind
  rule : String
  lexeme : List Char
  deriving DecidableEq, Repr

def Settings.admits (s : Settings) (r : Rule) : Bool := s.comments || r.name ≠ "COMMENT"

def Table.cut (t : Table) (settings : Settings) (rest : List Char) : Except Failure Cut :=
  match t.select? settings.admits rest with
  | none => .error (Failure.unmatched rest)
  | some c => match Failure.ofOpening? c.rule.name rest with
    | some f => .error f
    | none => match Kind.ofRule? c.rule.name (String.ofList c.lexeme) with
      | some kind => .ok { kind, rule := c.rule.name, lexeme := c.lexeme }
      | none => .error { kind := .noMatch }

inductive Item where
  | token (t : Token)
  | error (e : LexicalError)
  deriving DecidableEq, Repr

namespace Item

def token? : Item → Option Token
  | token t => some t
  | error _ => none

def error? : Item → Option LexicalError
  | token _ => none
  | error e => some e

end Item

structure Scan where
  table : Table
  settings : Settings
  place : Text.Place := {}
  /-- The text read, latest character first. -/
  passed : List Char := []
  ahead : List Char
  done : Bool := false
  deriving DecidableEq, Repr

namespace Scan

def ofText (table : Table) (settings : Settings) (text : List Char) : Scan :=
  { table, settings, ahead := text }

def source (s : Scan) : List Char := s.passed.reverse ++ s.ahead

def restart (s : Scan) : Scan := ofText s.table s.settings s.source

def advance (s : Scan) (n : Nat) : Scan :=
  { s with
    place := s.place.advance (s.ahead.take n)
    passed := (s.ahead.take n).reverse ++ s.passed
    ahead := s.ahead.drop n }

def placeToken (s : Scan) (c : Cut) : Token :=
  { kind := c.kind
    rule := c.rule
    lexeme := String.ofList c.lexeme
    range := ⟨s.place.offset, s.place.offset + Text.byteSize c.lexeme⟩
    start := s.place.position }

def placeError (s : Scan) (f : Failure) : LexicalError :=
  let there := s.advance f.ahead
  { kind := f.kind
    offset := there.place.offset
    line := there.place.line
    column := there.place.column
    snippet := String.ofList
      (LexicalError.window s.settings.snippetRadius there.passed there.ahead) }

/-- One token or error, and the scan behind it. A token that is passed over gives no item. -/
def step (s : Scan) : Option Item × Scan :=
  match s.table.cut s.settings s.ahead with
  | .ok c =>
    let shown := s.settings.emitWhitespace || !c.kind.isTrivia
    (if shown then some (.token (s.placeToken c)) else none, s.advance c.lexeme.length)
  | .error f =>
    (some (.error (s.placeError f)),
      if s.settings.stopOnFirstError then { s with done := true } else s.advance (f.ahead + 1))

/-- Steps until there is an item. Each step reads a character, so `bound` need only exceed the
number of characters ahead. -/
def nextWith : Nat → Scan → Option Item × Scan
  | 0, s => (none, s)
  | bound + 1, s =>
    if s.done then (none, s)
    else if s.ahead.isEmpty then (none, { s with done := true })
    else match s.step with
      | (some item, s) => (some item, s)
      | (none, s) => nextWith bound s

def next (s : Scan) : Option Item × Scan := nextWith (s.ahead.length + 1) s

def drainWith : Nat → Scan → List Item × Scan
  | 0, s => ([], s)
  | bound + 1, s => match s.next with
    | (none, s) => ([], s)
    | (some item, s) =>
      let (items, s) := drainWith bound s
      (item :: items, s)

def drain (s : Scan) : List Item × Scan := drainWith (s.ahead.length + 1) s

end Scan

namespace Table

def items (t : Table) (settings : Settings) (text : List Char) : List Item :=
  (Scan.ofText t settings text).drain.1

def tokens (t : Table) (settings : Settings) (text : List Char) :
    Except LexicalError (List Token) :=
  (t.items settings text).mapM fun
    | .token t => .ok t
    | .error e => .error e

end Table

end SparqlTokens
