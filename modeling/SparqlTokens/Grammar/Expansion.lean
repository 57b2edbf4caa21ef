import SparqlTokens.Grammar.Template
/-!
Rule definitions and their expansion: each reference is replaced by the expanded template of the
rule it names, as a group.
-/

namespace SparqlTokens

structure Definition where
  name : String
  template : String
  deriving DecidableEq, Repr

inductive GrammarError where
  | definedTwice (rule : String)
  | undefinedReference (rule target : String)
  /-- Each rule refers to the next; the last is the first again. -/
  | cycle (rules : List String)
  | undefinedPriority (rule : String)
  | repeatedPriority (rule : String)
  | invalidPattern (rule : String)
  deriving DecidableEq, Repr

def GrammarError.message : GrammarError → String
  | definedTwice rule => "malformed grammar: rule `" ++ rule ++ "` is defined more than once"
  | undefinedReference rule target =>
    "malformed grammar: rule `" ++ rule ++ "` references undefined rule `" ++ target ++ "`"
  | cycle rules => "malformed grammar: reference cycle: " ++ " -> ".intercalate rules
  | undefinedPriority rule =>
    "malformed grammar: priority list names undefined rule `" ++ rule ++ "`"
  | repeatedPriority rule =>
    "malformed grammar: rule `" ++ rule ++ "` appears twice in the priority list"
  | invalidPattern rule => "invalid pattern for rule " ++ rule

namespace Definition

def find? (definitions : List Definition) (name : String) : Option Definition :=
  definitions.find? (·.name = name)

def grouped (text : List Char) : List Char := '(' :: '?' :: ':' :: text ++ [')']

/-- The expanded template of `d`. The rules being expanded around it, outermost first, are `path`;
they are all different, so `depth` need only exceed the number of definitions less their number. -/
def expandWith (definitions : List Definition) :
    Nat → List String → Definition → Except GrammarError (List Char)
  | 0, path, d => .error (.cycle (path ++ [d.name]))
  | depth + 1, path, d =>
    if d.name ∈ path then .error (.cycle (path.dropWhile (· ≠ d.name) ++ [d.name]))
    else do
      let texts ← (Template.split d.template.toList).mapM fun
        | .char c => .ok [c]
        | .reference name =>
          match find? definitions (String.ofList name) with
          | none => .error (.undefinedReference d.name (String.ofList name))
          | some e => do return grouped (← expandWith definitions depth (path ++ [d.name]) e)
      return texts.flatten

def expand (definitions : List Definition) (d : Definition) : Except GrammarError (List Char) :=
  expandWith definitions (definitions.length + 1) [] d

end Definition

end SparqlTokens
