import SparqlTokens.Command.Arguments
import SparqlTokens.Command.Files
import SparqlTokens.Grammar.Sparql
import SparqlTokens.Lexing.Scan
import SparqlTokens.Listing.Rules
import SparqlTokens.Record.Settings
import SparqlTokens.Report
/-!
What a command prints and how it ends. A run over a text lists its tokens even if there are errors;
the errors are reported besides, unless the command is quiet.
-/

namespace SparqlTokens

namespace Command

inductive Failure where
  | unknownRule (name : String)
  | unreadable (path : String) (fault : FileFault)
  | unreadableInput (fault : FileFault)
  | badSettings (fault : Json.Fault) (text : List Char)
  | lexicalErrors (count : Nat)
  deriving DecidableEq, Repr

namespace Failure

def message : Failure → String
  | unknownRule name => "error: unknown terminal rule `" ++ name ++
    "`\n  help: run 'sparql-lex rules' to list rule names"
  | unreadable path fault => "error: failed to read " ++ path ++ ": " ++ fault.message
  | unreadableInput fault => "error: " ++ fault.message
  | badSettings fault text => "error: JSON parse error: " ++ fault.message text
  | lexicalErrors n =>
    "error: input has " ++ toString n ++ " lexical error" ++ (if n = 1 then "" else "s")

def exitCode : Failure → Nat
  | unknownRule _ => 2
  | _ => 1

end Failure

structure Result where
  output : String := ""
  /-- Reports of lexical errors. -/
  reports : String := ""
  failure : Option Failure := none
  deriving DecidableEq, Repr

def Result.exitCode (r : Result) : Nat :=
  match r.failure with
  | none => 0
  | some f => f.exitCode

structure Surroundings where
  files : Files := []
  input : ByteArray := ByteArray.empty

/-- The files there are. Standard input has a path of its own, and so has a file that is always
empty. -/
def Surroundings.allFiles (around : Surroundings) : Files :=
  around.files ++ [("/dev/stdin", around.input), ("/dev/null", ByteArray.empty)]

namespace Source

def name : Source → String
  | argument _ => "<expr>"
  | file path => path
  | standardInput => "<stdin>"

def read (around : Surroundings) : Source → Except Failure String
  | argument text => .ok text
  | file path => (around.allFiles.readText path).mapError (.unreadable path)
  | standardInput => (Files.text? around.input).mapError .unreadableInput

end Source

namespace Tokenize

/-- The settings of a run: those of the file, if one is given, overridden by the options. -/
def settings (t : Tokenize) (around : Surroundings) : Except Failure Settings := do
  let s ← match t.settingsFile with
    | none => .ok {}
    | some path =>
      match around.allFiles.readText path with
      | .error fault => .error (.unreadable path fault)
      | .ok text => (Settings.ofText text.toList).mapError (.badSettings · text.toList)
  return { s with
    emitWhitespace := s.emitWhitespace || t.emitWhitespace
    stopOnFirstError := s.stopOnFirstError && !t.keepGoing
    comments := s.comments && !t.noComments }

def listing (format : Listing.Format) (items : List Item) : String :=
  Listing.ofTokens (items.filterMap Item.token?) format ++ if format = .text then "" else "\n"

def resultOf (t : Tokenize) (quiet : Bool) (text : List Char) (items : List Item) : Result :=
  let errors := items.filterMap Item.error?
  { output := listing t.format items
    reports := if quiet then "" else Report.renderAll errors text (some t.source.name)
    failure := if errors.isEmpty then none else some (.lexicalErrors errors.length) }

def run (t : Tokenize) (quiet : Bool) (around : Surroundings) : Result :=
  match t.source.read around with
  | .error f => { failure := some f }
  | .ok text => match t.settings around with
    | .error f => { failure := some f }
    | .ok s => t.resultOf quiet text.toList (Sparql.table.items s text.toList)

end Tokenize

def check (rule text : String) : Result :=
  match Sparql.table.check? text.toList rule with
  | none => { failure := some (.unknownRule rule) }
  | some b => { output := if b then "true\n" else "false\n" }

end Command

def Command.run (c : Command) (around : Surroundings) : Command.Result :=
  match c.action with
  | .tokenize t => t.run c.quiet around
  | .check rule text => check rule text
  | .rules => { output := Listing.ofRules Sparql.table }

end SparqlTokens
