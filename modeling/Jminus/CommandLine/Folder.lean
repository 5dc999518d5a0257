import Jminus.Text.Blank

/-!
Files by their paths.

A path is read from left to right, each name leading on from the place before it. What lies outside
the working folder is folders without files.
-/
namespace Jminus.CommandLine

inductive ReadFailure where
  | missing
  | directory
  /-- A path leads on from a file. -/
  | notDirectory
  | nameTooLong
  /-- A reason in the words of the system. -/
  | other (text : String)
  deriving DecidableEq, Repr

def ReadFailure.message (name : String) (f : ReadFailure) : String :=
  "failed to read " ++ name ++ ": " ++
    match f with
    | .missing => "open " ++ name ++ ": no such file or directory"
    | .directory => "read " ++ name ++ ": is a directory"
    | .notDirectory => "open " ++ name ++ ": not a directory"
    | .nameTooLong => "open " ++ name ++ ": file name too long"
    | .other text => "open " ++ name ++ ": " ++ text

/-- The files of the working folder and of those in it, by the names that lead to them. -/
structure Folder where
  files : List (List String × String)
  deriving DecidableEq, Repr

namespace Folder

/-- Where a path has led so far. -/
inductive Place where
  | outside
  /-- A folder, by the names that lead to it from the working folder. -/
  | inside (names : List String)
  | file (text : String)
  deriving DecidableEq, Repr

/-- The names in a path that lead somewhere. -/
def names (path : String) : List String :=
  (Text.split '/' path).filter fun name => name != "" && name != "."

def ofTexts (texts : List (String × String)) : Folder :=
  { files := texts.map fun (path, text) => (names path, text) }

/-- What the names of a file or of a folder on the way to one stand for. -/
def find (f : Folder) (path : List String) : Except ReadFailure Place :=
  match f.files.lookup path with
  | some text => .ok (.file text)
  | none => if f.files.any (path.isPrefixOf ·.1) then .ok (.inside path) else .error .missing

def nameLimit : Nat := 255

def pathLimit : Nat := 4095

/-- One name further. An empty one, as behind a slash at the end, asks for a folder too. -/
def step (f : Folder) (place : Place) (name : String) : Except ReadFailure Place :=
  match place with
  | .file _ => .error .notDirectory
  | place =>
    if nameLimit < name.utf8ByteSize then .error .nameTooLong
    else if name = "" || name = "." then .ok place
    else
      match place with
      | .inside path =>
        if name = ".." then .ok (if path.isEmpty then .outside else .inside path.dropLast)
        else f.find (path ++ [name])
      | place => if name = ".." then .ok place else .error .missing

/-- The text of the file that a path leads to. -/
def read (f : Folder) (path : String) : Except ReadFailure String :=
  if path = "" then .error .missing
  else if pathLimit < path.utf8ByteSize then .error .nameTooLong
  else
    let start : Place := if path.startsWith "/" then .outside else .inside []
    match (Text.split '/' path).foldlM f.step start with
    | .ok (.file text) => .ok text
    | .ok _ => .error .directory
    | .error failure => .error failure

end Folder

end Jminus.CommandLine
