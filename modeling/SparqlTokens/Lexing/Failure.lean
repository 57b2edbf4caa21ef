import SparqlTokens.Token.Escape
/-!
Why no token can be cut at a place, and where the fault lies. A quoted text is read from its opening
quotes until it closes, breaks off, or shows a backslash that begins no escape.
-/

namespace SparqlTokens

inductive FailureKind where
  | noMatch
  | unterminated
  | invalidEscape
  deriving DecidableEq, Repr

namespace FailureKind

def code : FailureKind → String
  | noMatch => "L001"
  | unterminated => "L002"
  | invalidEscape => "L003"

def ofCode? (code : String) : Option FailureKind :=
  [noMatch, unterminated, invalidEscape].find? (·.code = code)

def description : FailureKind → String
  | noMatch => "no terminal matches at this position"
  | unterminated => "unterminated literal"
  | invalidEscape => "invalid escape sequence"

end FailureKind

/-- A failure to cut a token, and how many characters ahead its cause lies. -/
structure Failure where
  kind : FailureKind
  ahead : Nat := 0
  deriving DecidableEq, Repr

/-- How a quoted text ends, with the number of characters before its closing quotes or before the
backslash at fault. -/
inductive Ending where
  | closed (before : Nat)
  | unterminated
  | badEscape (before : Nat)
  deriving DecidableEq, Repr

namespace Ending

/-- The end of a text in single quotes, of which `read` characters have been read. It stays within
its line. -/
def short (quote : Char) (read : Nat) : List Char → Ending
  | [] => unterminated
  | ['\\'] => unterminated
  | '\\' :: c :: r =>
    if (Escape.stringChar? c).isSome then short quote (read + 2) r else badEscape read
  | c :: r =>
    if c = quote then closed read
    else if c = '\n' ∨ c = '\r' then unterminated
    else short quote (read + 1) r

def long (quote : Char) (read : Nat) : List Char → Ending
  | [] => unterminated
  | ['\\'] => unterminated
  | '\\' :: c :: r =>
    if (Escape.stringChar? c).isSome then long quote (read + 2) r else badEscape read
  | c :: r =>
    if c = quote ∧ r.take 2 = [quote, quote] then closed read else long quote (read + 1) r

def failure? : Ending → Option Failure
  | closed _ => none
  | unterminated => some { kind := .unterminated }
  | badEscape before => some { kind := .invalidEscape, ahead := before }

end Ending

namespace Failure

def isIriChar (c : Char) : Bool :=
  c ∉ ['<', '>', '"', '{', '}', '|', '^', '`', '\\'] && ' ' < c

/-- Whether a text is all of an IRI but its end: characters of an IRI, a colon among them. -/
def isOpenIri (text : List Char) : Bool := text.all isIriChar && ':' ∈ text

def quoted? : List Char → Option Ending
  | q :: r =>
    if q = '"' ∨ q = '\'' then
      if r.take 2 = [q, q] then some (.long q 3 (r.drop 2)) else some (.short q 1 r)
    else none
  | [] => none

def isBadLocalEscape : List Char → Bool
  | '\\' :: c :: _ => c ∉ Escape.localSigns
  | ['\\'] => true
  | _ => false

def unmatched (rest : List Char) : Failure :=
  match (quoted? rest).bind Ending.failure? with
  | some f => f
  | none => { kind := if isBadLocalEscape rest then .invalidEscape else .noMatch }

def missesTripleQuote (rule : String) : List Char → Bool
  | '"' :: '"' :: '"' :: _ => rule ≠ "STRING_LITERAL_LONG2"
  | '\'' :: '\'' :: '\'' :: _ => rule ≠ "STRING_LITERAL_LONG1"
  | _ => false

/-- The failure to see behind a match of `rule` that took only the opening of an unfinished
literal: an empty string off the front of triple quotes, or the bracket of an open IRI. -/
def ofOpening? (rule : String) (rest : List Char) : Option Failure :=
  if missesTripleQuote rule rest then (quoted? rest).bind Ending.failure?
  else match rest with
    | '<' :: r => if rule = "PUNCT" && isOpenIri r then some { kind := .unterminated } else none
    | _ => none

end Failure

end SparqlTokens
