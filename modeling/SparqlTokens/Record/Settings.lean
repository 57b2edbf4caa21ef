import SparqlTokens.Json.Reader
import SparqlTokens.Lexing.Settings
/-!
Settings as JSON: an object with any of the four fields, or an array of their values in order. What
is left out keeps its usual value, and an object may have other fields besides. A text is read as it
goes along, so that its first fault is told with its place; a value is only accepted or not.
-/

namespace SparqlTokens

namespace Settings

inductive Field where
  | emitWhitespace
  | stopOnFirstError
  | comments
  | snippetRadius
  deriving DecidableEq, Repr

namespace Field

def all : List Field := [emitWhitespace, stopOnFirstError, comments, snippetRadius]

def name : Field → String
  | emitWhitespace => "emitWhitespace"
  | stopOnFirstError => "stopOnFirstError"
  | comments => "comments"
  | snippetRadius => "snippetRadius"

def ofName? (name : String) : Option Field := all.find? (·.name = name)

def read (f : Field) (s : Settings) (text : List Char) :
    Except Json.Fault (Settings × List Char) :=
  match f with
  | emitWhitespace => do
    let (b, r) ← Json.boolean text
    return ({ s with emitWhitespace := b }, r)
  | stopOnFirstError => do
    let (b, r) ← Json.boolean text
    return ({ s with stopOnFirstError := b }, r)
  | comments => do
    let (b, r) ← Json.boolean text
    return ({ s with comments := b }, r)
  | snippetRadius => do
    let (n, r) ← Json.size text
    return ({ s with snippetRadius := n }, r)

end Field

/-- The value behind a key: of a field, which must not have been read before, or of any other. -/
def readField (key : String) (read : List Field) (s : Settings) (text : List Char) :
    Except Json.Fault ((List Field × Settings) × List Char) :=
  match Field.ofName? key with
  | none => do
    let (_, r) ← Json.colon text
    let (_, r) ← Json.value r
    return ((read, s), r)
  | some f =>
    if f ∈ read then
      let rest := match Json.skipBlanks text with
        | '}' :: r => r
        | r => r
      .error (.behind (.repeatedField key) rest)
    else do
      let (_, r) ← Json.colon text
      let (s, r) ← f.read s r
      return ((f :: read, s), r)

def readFields : Nat → List Field → Settings → List Char →
    Except Json.Fault (Settings × List Char)
  | 0, _, _, text => .error (.behind .cutOffObject text)
  | bound + 1, read, s, text => match Json.skipBlanks text with
    | '"' :: r => do
      let (key, r) ← Json.readQuoted true r
      let ((read, s), r) ← readField key read s r
      match Json.skipBlanks r with
      | [] => .error (.behind .cutOffObject [])
      | '}' :: r => return (s, r)
      | ',' :: r => match Json.skipBlanks r with
        | '}' :: r => .error (.atNext .trailingComma ('}' :: r))
        | r => readFields bound read s r
      | r => .error (.atNext .missingObjectComma r)
    | [] => .error (.behind .cutOffValue [])
    | r => .error (.atNext .keyNotString r)

/-- The items of an array, from a value or the closing bracket on; `missing` are the fields that
have no value yet. -/
def readItems : List Field → Settings → List Char → Except Json.Fault (Settings × List Char)
  | [], _, text => .error (.atNext .trailingText text)
  | f :: missing, s, text => do
    let (s, r) ← f.read s text
    match Json.skipBlanks r with
    | [] => .error (.behind .cutOffList [])
    | ']' :: r => return (s, r)
    | ',' :: r => match Json.skipBlanks r with
      | ']' :: r => .error (.atNext .trailingComma (']' :: r))
      | [] => .error (.behind (if missing.isEmpty then .trailingText else .cutOffValue) [])
      | r => readItems missing s r
    | r =>
      .error (.atNext (if missing.isEmpty then .trailingText else .missingListComma) r)

def readValue (text : List Char) : Except Json.Fault (Settings × List Char) :=
  match Json.skipBlanks text with
  | '{' :: r => match Json.skipBlanks r with
    | [] => .error (.behind .cutOffObject [])
    | '}' :: r => .ok ({}, r)
    | r => readFields r.length [] {} r
  | '[' :: r => match Json.skipBlanks r with
    | [] => .error (.behind .cutOffList [])
    | ']' :: r => .ok ({}, r)
    | r => readItems Field.all {} r
  | r => Json.mismatch "struct LexOptions" r

def ofText (text : List Char) : Except Json.Fault Settings := do
  let (s, r) ← readValue text
  Json.finished r
  return s

def Field.set? (f : Field) (s : Settings) (j : Json) : Option Settings :=
  match f with
  | emitWhitespace => j.bool?.map fun b => { s with emitWhitespace := b }
  | stopOnFirstError => j.bool?.map fun b => { s with stopOnFirstError := b }
  | comments => j.bool?.map fun b => { s with comments := b }
  | snippetRadius => (j.natBelow? UInt64.size).map fun n => { s with snippetRadius := n }

/-- The settings that a value describes. Of fields with one name the last one counts. -/
def ofJson? (j : Json) : Option Settings :=
  match j with
  | .object _ => Field.all.foldlM (fun s f => match j.field? f.name with
    | none => some s
    | some value => f.set? s value) {}
  | .array items =>
    if items.length ≤ Field.all.length then
      (Field.all.zip items).foldlM (fun s (f, value) => f.set? s value) {}
    else none
  | _ => none

def toJson (s : Settings) : Json :=
  .object [("emitWhitespace", .bool s.emitWhitespace),
    ("stopOnFirstError", .bool s.stopOnFirstError), ("comments", .bool s.comments),
    ("snippetRadius", .nat s.snippetRadius)]

end Settings

end SparqlTokens
