import SparqlTokens.Listing.Tokens
/-!
The arguments of the command line. Three options may stand before the command as well as behind it;
on either side an option is given at most once. Whatever does not fit is refused as a whole.
-/

namespace SparqlTokens

namespace Command

inductive Switch where
  | verbose
  | quiet
  | noColor
  | expression
  | emitWhitespace
  | keepGoing
  | noComments
  | settings
  | format
  deriving DecidableEq, Repr

namespace Switch

def name : Switch → String
  | verbose => "verbose"
  | quiet => "quiet"
  | noColor => "no-color"
  | expression => "expr"
  | emitWhitespace => "emit-whitespace"
  | keepGoing => "keep-going"
  | noComments => "no-comments"
  | settings => "options"
  | format => "format"

def letter? : Switch → Option Char
  | verbose => some 'v'
  | quiet => some 'q'
  | expression => some 'e'
  | _ => none

def takesValue : Switch → Bool
  | expression | settings | format => true
  | _ => false

def shared : List Switch := [verbose, quiet, noColor]

def ofTokenize : List Switch :=
  shared ++ [expression, emitWhitespace, keepGoing, noComments, settings, format]

end Switch

inductive Argument where
  /-- Two hyphens, behind which nothing is an option. -/
  | ending
  | long (name : String) (value : Option String)
  | letters (cs : List Char)
  | plain
  deriving DecidableEq, Repr

def Argument.ofText (text : String) : Argument :=
  match text.toList with
  | ['-', '-'] => ending
  | '-' :: '-' :: r =>
    match r.dropWhile (· ≠ '=') with
    | [] => long (String.ofList r) none
    | _ :: value => long (String.ofList (r.takeWhile (· ≠ '='))) (some (String.ofList value))
  | '-' :: c :: r => letters (c :: r)
  | _ => plain

structure Given where
  switches : List (Switch × String) := []
  words : List String := []
  deriving DecidableEq, Repr

namespace Given

def has (g : Given) (s : Switch) : Bool := g.switches.any (·.1 = s)

def value? (g : Given) (s : Switch) : Option String :=
  (g.switches.find? (·.1 = s)).map (·.2)

def add? (g : Given) (s : Switch) (value : String) : Option Given :=
  if g.has s then none else some { g with switches := g.switches ++ [(s, value)] }

/-- Options by their letters. The first that takes a value takes what is left, with or without an
equals sign in front; if nothing is left, it waits for the next argument. -/
def addLetters? (allowed : List Switch) (g : Given) : List Char → Option (Given × Option Switch)
  | [] => some (g, none)
  | c :: r => do
    let s ← allowed.find? (·.letter? = some c)
    if s.takesValue then
      match r with
      | [] => some (g, some s)
      | '=' :: value => return (← g.add? s (String.ofList value), none)
      | value => return (← g.add? s (String.ofList value), none)
    else addLetters? allowed (← g.add? s "") r

/-- Arguments one by one; an option that waits for its value takes no other option for it. -/
def read? (allowed : List Switch) (g : Given) : Option Switch → List String → Option Given
  | none, [] => some g
  | some _, [] => none
  | waiting, text :: texts =>
    match Argument.ofText text, waiting with
    | .plain, some s => do read? allowed (← g.add? s text) none texts
    | _, some _ => none
    | .plain, none => read? allowed { g with words := g.words ++ [text] } none texts
    | .ending, none => some { g with words := g.words ++ texts }
    | .letters cs, none => do
      let (g, waiting) ← addLetters? allowed g cs
      read? allowed g waiting texts
    | .long name value, none => do
      let s ← allowed.find? (·.name = name)
      match value with
      | some v => if s.takesValue then read? allowed (← g.add? s v) none texts else none
      | none =>
        if s.takesValue then read? allowed g (some s) texts
        else read? allowed (← g.add? s "") none texts

/-- Being verbose and being quiet exclude each other. -/
def isConsistent (g : Given) : Bool := !(g.has .verbose && g.has .quiet)

def ofArguments? (allowed : List Switch) (texts : List String) : Option Given :=
  (read? allowed {} none texts).filter isConsistent

end Given

inductive Source where
  | argument (text : String)
  | file (path : String)
  | standardInput
  deriving DecidableEq, Repr

structure Tokenize where
  source : Source
  emitWhitespace : Bool
  keepGoing : Bool
  noComments : Bool
  settingsFile : Option String
  format : Listing.Format
  deriving DecidableEq, Repr

inductive Action where
  | tokenize (t : Tokenize)
  | check (rule text : String)
  | rules
  deriving DecidableEq, Repr

def path? (text : String) : Option String := if text.isEmpty then none else some text

/-- Whether a path has a hyphen for its only part. Slashes and points behind a part add nothing. -/
def isHyphen (path : String) : Bool :=
  match path.splitOn "/" with
  | [] => false
  | part :: parts => part = "-" && parts.all fun part => part = "" || part = "."

/-- A lone hyphen instead of a file, or no file at all, stands for standard input. -/
def Source.ofGiven? (g : Given) : Option Source :=
  match g.value? .expression, g.words with
  | some text, [] => some (argument text)
  | none, [] => some standardInput
  | none, [path] => (path? path).map fun p => if isHyphen p then standardInput else file p
  | _, _ => none

def Tokenize.ofGiven? (g : Given) : Option Tokenize := do
  return {
    source := ← Source.ofGiven? g
    emitWhitespace := g.has .emitWhitespace
    keepGoing := g.has .keepGoing
    noComments := g.has .noComments
    settingsFile := ← (match g.value? .settings with
      | none => some none
      | some p => (path? p).map some)
    format := ← Listing.Format.ofName? ((g.value? .format).getD "text") }

def Action.ofArguments? (name : String) (texts : List String) : Option (Action × Given) :=
  match name with
  | "tokenize" => do
    let g ← Given.ofArguments? Switch.ofTokenize texts
    return (tokenize (← Tokenize.ofGiven? g), g)
  | "check" => do
    let g ← Given.ofArguments? Switch.shared texts
    match g.words with
    | [rule, text] => some (check rule text, g)
    | _ => none
  | "rules" => do
    let g ← Given.ofArguments? Switch.shared texts
    if g.words.isEmpty then some (rules, g) else none
  | _ => none

end Command

structure Command where
  action : Command.Action
  quiet : Bool
  deriving DecidableEq, Repr

def Command.ofArguments? (texts : List String) : Option Command :=
  let front := texts.takeWhile fun text => Argument.ofText text ≠ .plain
  match texts.drop front.length with
  | [] => none
  | name :: rest => do
    if "--" ∈ front then none
    let before ← Given.ofArguments? Switch.shared front
    let (action, behind) ← Action.ofArguments? name rest
    return { action, quiet := before.has .quiet || behind.has .quiet }

end SparqlTokens
