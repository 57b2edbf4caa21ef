import SparqlTokens.Grammar.Expansion
import SparqlTokens.Pattern.Reader
import SparqlTokens.Pattern.Unicode
import SparqlTokens.Text.Bytes
/-!
The table of terminal rules. Each rule has two patterns made from its expanded text: one that has to
match a whole text, and one that has to match at its start. Both wrap the expanded text in a group
by concatenation, so a text that closes this group early is read that way.
-/

namespace SparqlTokens

open Pattern (Properties)

structure Rule where
  name : String
  template : String
  /-- The expanded template. -/
  expanded : String
  /-- Place in the priority list, from zero, if the rule makes tokens. -/
  rank? : Option Nat
  whole : Pattern
  leading : Pattern
  deriving DecidableEq, Repr

namespace Rule

def leadingText (expanded : List Char) : List Char := '^' :: Definition.grouped expanded

def wholeText (expanded : List Char) : List Char := leadingText expanded ++ ['$']

def compile (properties : Properties) (d : Definition) (expanded : List Char)
    (rank? : Option Nat) : Except GrammarError Rule :=
  match Expression.parse properties (wholeText expanded),
    Expression.parse properties (leadingText expanded) with
  | .ok whole, .ok leading =>
    .ok { name := d.name, template := d.template, expanded := String.ofList expanded, rank?,
          whole := whole.pattern, leading := leading.pattern }
  | _, _ => .error (.invalidPattern d.name)

def expression? (properties : Properties) (r : Rule) : Option Expression :=
  (Expression.parse properties (leadingText r.expanded.toList)).toOption

def accepts (r : Rule) (text : List Char) : Bool := (r.whole.find? text).isSome

/-- The characters of the rule's match at the start of a text. -/
def leadingLength? (r : Rule) (text : List Char) : Option Nat := r.leading.find? text

def leadingBytes? (r : Rule) (text : List Char) : Option Nat :=
  (r.leadingLength? text).map fun n => Text.byteSize (text.take n)

end Rule

structure Table where
  /-- All rules, as declared. -/
  rules : List Rule
  /-- The rules that make tokens, best rank first. -/
  tokenRules : List Rule
  deriving DecidableEq, Repr

namespace Table

def empty : Table := ⟨[], []⟩

def firstRepeated? (seen : List String) : List String → Option String
  | [] => none
  | n :: ns => if n ∈ seen then some n else firstRepeated? (n :: seen) ns

def priorityFault? (defined seen : List String) : List String → Option GrammarError
  | [] => none
  | n :: ns =>
    if n ∉ defined then some (.undefinedPriority n)
    else if n ∈ seen then some (.repeatedPriority n)
    else priorityFault? defined (n :: seen) ns

/-- The name under which the token rules together are refused. -/
def tokenSet : String := "<token set>"

def build (definitions : List Definition) (priority : List String)
    (properties : Properties := .standard) : Except GrammarError Table := do
  let names := definitions.map (·.name)
  if let some n := firstRepeated? [] names then throw (.definedTwice n)
  let texts ← definitions.mapM (Definition.expand definitions)
  if let some e := priorityFault? names [] priority then throw e
  let rules ← (definitions.zip texts).mapM fun (d, text) =>
    Rule.compile properties d text (priority.idxOf? d.name)
  let tokenRules := priority.filterMap fun n => rules.find? (·.name = n)
  unless Expression.areWithinLimit (tokenRules.filterMap (Rule.expression? properties)) do
    throw (.invalidPattern tokenSet)
  return { rules, tokenRules }

def size (t : Table) : Nat := t.rules.length

def isEmpty (t : Table) : Bool := t.rules.isEmpty

def rule? (t : Table) (name : String) : Option Rule := t.rules.find? (·.name = name)

def unknownRule (name : String) : String := "unknown terminal rule: " ++ name

/-- Rule names: the token rules by rank, then the others as declared. -/
def names (t : Table) : List String :=
  t.tokenRules.map (·.name) ++ (t.rules.filter (·.rank?.isNone)).map (·.name)

def check? (t : Table) (text : List Char) (rule : String) : Option Bool :=
  (t.rule? rule).map (·.accepts text)

def matchAt? (t : Table) (rule : String) (text : List Char) (offset : Nat) :
    Option (Option Nat) :=
  (t.rule? rule).map fun r => (Text.dropBytes? offset text).bind r.leadingBytes?

end Table

end SparqlTokens
