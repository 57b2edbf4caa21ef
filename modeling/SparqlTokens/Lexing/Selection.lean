import SparqlTokens.Grammar.Table
/-!
The token rules that match at a place, and the choice among them: the longest match, and of equally
long ones the best rank. The word `true` or `false` is not taken off the front of a longer name.
-/

namespace SparqlTokens

structure Candidate where
  rule : Rule
  lexeme : List Char
  deriving DecidableEq, Repr

namespace Candidate

def bytes (c : Candidate) : Nat := Text.byteSize c.lexeme

end Candidate

namespace Table

/-- Whether a name goes on in a text, as far as the table knows the characters of names. -/
def continuesName (t : Table) (rest : List Char) : Bool :=
  match t.rule? "PN_CHARS" with
  | some r => (r.leadingLength? rest).isSome
  | none => false

def candidate? (t : Table) (rest : List Char) (r : Rule) : Option Candidate :=
  match r.leadingLength? rest with
  | none | some 0 => none
  | some n =>
    if r.name = "BooleanLiteral" && t.continuesName (rest.drop n) then none
    else some { rule := r, lexeme := rest.take n }

/-- The candidates at the start of a text, best rank first. There are none at its end. -/
def candidates (t : Table) (rest : List Char) : List Candidate :=
  if rest.isEmpty then [] else t.tokenRules.filterMap (t.candidate? rest)

end Table

namespace Candidate

/-- The longest candidate, and of equally long ones the first. -/
def longest? : List Candidate → Option Candidate
  | [] => none
  | c :: cs => match longest? cs with
    | none => some c
    | some d => if c.lexeme.length < d.lexeme.length then some d else some c

end Candidate

namespace Table

def select? (t : Table) (keep : Rule → Bool) (rest : List Char) : Option Candidate :=
  Candidate.longest? ((t.candidates rest).filter fun c => keep c.rule)

def candidatesAt (t : Table) (text : List Char) (offset : Nat) : List Candidate :=
  match Text.dropBytes? offset text with
  | some rest => t.candidates rest
  | none => []

def selectWhere? (t : Table) (keep : Candidate → Bool) (text : List Char) (offset : Nat) :
    Option Candidate :=
  Candidate.longest? ((t.candidatesAt text offset).filter keep)

def selectAt? (t : Table) (keep : Rule → Bool) (text : List Char) (offset : Nat) :
    Option Candidate :=
  t.selectWhere? (fun c => keep c.rule) text offset

end Table

end SparqlTokens
