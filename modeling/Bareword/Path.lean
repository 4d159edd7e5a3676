import Bareword.Text.Basic

/-! # Paths

Names of files, with slashes between their parts.

* `Path.clean`: the shortest path that leads to the same place.
* `Path.extension`: what follows the last dot.
* `Path.expand`: a path that may start at the home directory.
-/

namespace Bareword.Path
set_option autoImplicit false

def slash : UInt8 := Text.byte '/'

/-- Whether a path starts at the root. -/
def isRooted (p : Text) : Bool := p.head? == some slash

/-- The parts that are left when each step up takes back the step before it. The parts so far are
given in reverse order. -/
def cleanParts (rooted : Bool) : List Text → List Text → List Text
  | done, [] => done.reverse
  | done, part :: rest =>
    if part = [] ∨ part = "." then cleanParts rooted done rest
    else if part = ".." then
      match done with
      | [] => cleanParts rooted (if rooted then [] else [".."]) rest
      | last :: before =>
        if last = ".." then cleanParts rooted (part :: done) rest else cleanParts rooted before rest
    else cleanParts rooted (part :: done) rest

/-- The shortest path that leads to the same place. -/
def clean (p : Text) : Text :=
  let parts := Text.join [slash] (cleanParts (isRooted p) [] (Text.splitOn slash p))
  if isRooted p then slash :: parts else if parts.isEmpty then "." else parts

def join (directory p : Text) : Text :=
  if directory.isEmpty then if p.isEmpty then [] else clean p
  else if p.isEmpty then clean directory
  else clean (directory ++ slash :: p)

/-- What follows the last dot of the last part, with the dot. -/
def extension (p : Text) : Text :=
  let last := (p.reverse.takeWhile (· ≠ slash)).reverse
  match Text.findLast? "." last with
  | none => []
  | some i => last.drop i

/-- What is wrong with a path that starts at the home directory of somebody else. -/
def foreignHome : Text := "cannot expand user-specific home dir"

/-- A path that may start at the home directory. -/
def expand (home p : Text) : Except Text Text :=
  match p with
  | [] => .ok []
  | b :: rest =>
    if b ≠ Text.byte '~' then .ok p
    else
      match rest with
      | [] => .ok (join home [])
      | c :: _ =>
        if c = slash ∨ c = Text.byte '\\' then .ok (join home rest) else .error foreignHome

end Bareword.Path
