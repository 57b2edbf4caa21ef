/-!
Files by their paths, and what keeps a path from being read as text.
-/

namespace SparqlTokens

namespace Command

inductive FileFault where
  | missing
  | behindFile
  | directory
  | nameTooLong
  | notText
  deriving DecidableEq, Repr

def FileFault.message : FileFault → String
  | missing => "No such file or directory (os error 2)"
  | behindFile => "Not a directory (os error 20)"
  | directory => "Is a directory (os error 21)"
  | nameTooLong => "File name too long (os error 36)"
  | notText => "stream did not contain valid UTF-8"

abbrev Files := List (String × ByteArray)

namespace Files

def staysThere (part : String) : Bool := part = "" || part = "."

def names (path : String) : List String := (path.splitOn "/").filter (!staysThere ·)

def isFromRoot (path : String) : Bool := path.startsWith "/"

def within (files : Files) (fromRoot : Bool) : List (List String × ByteArray) :=
  (files.filter fun file => isFromRoot file.1 = fromRoot).map fun file => (names file.1, file.2)

/-- The directory that holds `here`. Above the root is the root. -/
def enclosing (fromRoot : Bool) (here : List String) : List String :=
  match here.getLast? with
  | none => if fromRoot then [] else [".."]
  | some name => if name = ".." then here ++ [".."] else here.dropLast

def follow (files : List (List String × ByteArray)) (fromRoot : Bool) (here : List String) :
    List String → Except FileFault ByteArray
  | [] => .error .directory
  | part :: rest =>
    if staysThere part then follow files fromRoot here rest
    else if part = ".." then follow files fromRoot (enclosing fromRoot here) rest
    else if 255 < part.utf8ByteSize then .error .nameTooLong
    else
      let there := here ++ [part]
      match files.find? (·.1 = there) with
      | some (_, bytes) => if rest.isEmpty then .ok bytes else .error .behindFile
      | none =>
        if files.any fun file => there.isPrefixOf file.1 then follow files fromRoot there rest
        else .error .missing

def read (files : Files) (path : String) : Except FileFault ByteArray :=
  match files.find? (·.1 = path) with
  | some (_, bytes) => .ok bytes
  | none =>
    if 4095 < path.utf8ByteSize then .error .nameTooLong
    else follow (files.within (isFromRoot path)) (isFromRoot path) [] (path.splitOn "/")

def text? (bytes : ByteArray) : Except FileFault String :=
  match String.fromUTF8? bytes with
  | some s => .ok s
  | none => .error .notText

def readText (files : Files) (path : String) : Except FileFault String := do
  text? (← files.read path)

end Files

end Command

end SparqlTokens
