import Bareword.Path

/-! # Files

The files that a program can read.

* `Disk`: what is known of the files. A path of which nothing is known has no answer yet.
* `Disk.ofFiles`: a directory that holds some files and nothing else.
-/

namespace Bareword
set_option autoImplicit false

/-- What is known of the files: for a path its contents, or what is wrong with it. -/
abbrev Disk := Text → Option (Except Text Text)

namespace Disk

def complaint (verb path reason : Text) : Text := verb ++ " " ++ path ++ ": " ++ reason

/-- What a walk along a path comes to. -/
inductive Place where
  | directory (path : List Text)
  | file (path : List Text)
  | missing
  /-- A part that leads below a file. -/
  | blocked
  deriving DecidableEq

def parts (name : Text) : List Text := (Text.splitOn Path.slash name).filter (! ·.isEmpty)

/-- Whether a file or a directory that holds one stands at some parts. -/
def step (files : List (List Text)) (path : List Text) : Place :=
  if files.contains path then .file path
  else if files.any path.isPrefixOf then .directory path
  else .missing

/-- Walks along the parts of a path from a directory. Nothing is known of what is above the first
directory, and it counts as a directory itself. -/
def walk (files : List (List Text)) : Place → List Text → Place
  | place, [] => place
  | .directory path, part :: rest =>
    if part.isEmpty ∨ part = "." then walk files (.directory path) rest
    else if part = ".." then walk files (.directory path.dropLast) rest
    else walk files (step files (path ++ [part])) rest
  | .file _, _ :: _ => .blocked
  | .missing, _ => .missing
  | .blocked, _ => .blocked

def maxName : Nat := 255

def maxPath : Nat := 4095

def malformed? (path : Text) : Option Text :=
  if path.contains 0 then some "invalid argument"
  else if path.isEmpty then some "no such file or directory"
  else if path.length > maxPath ∨ (Text.splitOn Path.slash path).any (·.length > maxName) then
    some "file name too long"
  else none

/-- The place that a path leads to in a directory with some files. -/
def locate (files : List (Text × Text)) (path : Text) : Place :=
  let names := files.map fun f => parts f.1
  let pieces := Text.splitOn Path.slash path
  if Path.isRooted path then
    if (parts path).isEmpty then .directory [] else .missing
  else walk names (.directory []) pieces

/-- The directory that holds some files and nothing else. -/
def ofFiles (files : List (Text × Text)) : Disk := fun path =>
  some (match malformed? path with
    | some reason => .error (complaint "open" path reason)
    | none =>
      match locate files path with
      | .file name =>
        .ok (((files.find? fun f => parts f.1 = name).map (·.2)).getD [])
      | .directory _ => .error (complaint "read" path "is a directory")
      | .missing => .error (complaint "open" path "no such file or directory")
      | .blocked => .error (complaint "open" path "not a directory"))

/-- What is wrong with writing a file, if anything: the directory of its path has to be there, and
it must not be a directory itself. -/
def unwritable? (files : List (Text × Text)) (path : Text) : Option Text :=
  let open' (reason : Text) : Option Text := some (complaint "open" path reason)
  match malformed? path with
  | some reason => open' reason
  | none =>
    match locate files path with
    | .file _ => none
    | .directory _ => open' "is a directory"
    | .blocked => open' "not a directory"
    | .missing =>
      let pieces := Text.splitOn Path.slash path
      if Path.isRooted path then open' "no such file or directory"
      else if (pieces.getLastD []).isEmpty then open' "is a directory"
      else
        match walk (files.map fun f => parts f.1) (.directory []) pieces.dropLast with
        | .directory _ => none
        | .blocked | .file _ => open' "not a directory"
        | .missing => open' "no such file or directory"

end Disk
end Bareword
