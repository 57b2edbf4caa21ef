import SparqlTokens.Command.Run
/-!
The command line program.
-/

namespace SparqlTokens

namespace Command

def paths (c : Command) : List String :=
  match c.action with
  | .tokenize t =>
    (match t.source with
      | .file path => [path]
      | _ => []) ++ t.settingsFile.toList
  | _ => []

def readsInput (c : Command) : Bool :=
  match c.action with
  | .tokenize t => t.source = .standardInput
  | _ => false

def readFiles (paths : List String) : IO Files :=
  paths.filterMapM fun (path : String) => do
    try
      return some (path, ← IO.FS.readBinFile path)
    catch _ =>
      return none

partial def readInput (stream : IO.FS.Stream) (read : ByteArray) : IO ByteArray := do
  let more ← stream.read 65536
  if more.isEmpty then return read else readInput stream (read ++ more)

def execute (arguments : List String) : IO UInt32 := do
  match Command.ofArguments? arguments with
  | none =>
    IO.eprintln "usage: sparql-lex [-v | -q] [--no-color] (tokenize | check | rules) ..."
    return 2
  | some c =>
    let files ← readFiles c.paths
    let input ← if c.readsInput then readInput (← IO.getStdin) ByteArray.empty
      else pure ByteArray.empty
    let result := c.run { files, input }
    IO.print result.output
    IO.eprint result.reports
    if let some f := result.failure then IO.eprintln f.message
    return result.exitCode.toUInt32

end Command

end SparqlTokens

def main (arguments : List String) : IO UInt32 := SparqlTokens.Command.execute arguments
