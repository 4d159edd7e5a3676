import Bareword.Decimal.Format
import Bareword.Search
import Bareword.Text.Quoted

/-! # Command tables

The commands that scripts know, sorted by name. The parser asks the table whether a bare name is a
command, and completion asks it for the commands that start with some text.

* `Command`, `Parameter`, `Setting`: a command, one of its parameters, the default of a parameter.
* `Registry.ofList`, `Registry.add`: a table of some commands, a table with one more.
* `Registry.lookup`: the command with a name and the commands whose names start with it.
* `Command.normalize`: a command as it was read, checked and completed.
-/

namespace Bareword
set_option autoImplicit false

/-- The default of a parameter. -/
inductive Setting where
  | flag (b : Bool)
  | text (t : Text)
  | integer (n : Int)
  | number (x : Float)
  /-- Any other value, kept as it is shown in messages. -/
  | other (shown : Text)
  deriving Inhabited

namespace Setting

/-- A setting as it is shown in messages. -/
def shown : Setting → Text
  | .flag b => if b then "true" else "false"
  | .text t => t
  | .integer n => Text.decimal n
  | .number x => Decimal.general x
  | .other t => t

/-- The type of parameter that a setting can be the default of. -/
def typeName? : Setting → Option Text
  | .flag _ => some "boolean"
  | .text _ => some "string"
  | .integer _ | .number _ => some "number"
  | .other _ => none

end Setting

/-- A parameter of a command. One with a default is passed by name, the others by position. -/
structure Parameter where
  name : Text
  type : Text := []
  description : Text := []
  named : Bool := false
  default : Option Setting := none
  deriving Inhabited

structure Command where
  name : Text
  description : Text := []
  execute : Text := []
  params : List Parameter := []
  /-- Whether the entry lists its parameters although there are none. -/
  listsNone : Bool := false
  deriving Inhabited

namespace Command

/-- The parameters that are passed by position. -/
def positional (c : Command) : List Parameter := c.params.filter fun p => !p.named

/-- The types that a parameter can have. -/
def typeNames : List Text := ["string", "number", "boolean"]

/-- A parameter that was read, with its type filled in, named if it has a default; or what is wrong
with it. `i` is its place among the parameters of `command`. -/
def normalizeParameter (command : Text) (i : Nat) (p : Parameter) : Except Text Parameter :=
  let complaint (t : Text) : Text := "command " ++ Text.quoted command ++ ": " ++ t
  if p.name.isEmpty then .error (complaint ("argument " ++ Text.ofNat i ++ " has no name"))
  else
    let p := if p.type.isEmpty then { p with type := "string" } else p
    if !typeNames.contains p.type then
      .error (complaint ("argument " ++ Text.quoted p.name ++ " has unknown type " ++
        Text.quoted p.type))
    else
      match p.default with
      | none => .ok p
      | some d =>
        if d.typeName? == some p.type then .ok { p with named := true }
        else
          .error (complaint ("argument " ++ Text.quoted p.name ++ ": default " ++ d.shown ++
            " is not a " ++ p.type))

/-- A command that was read, with its parameters completed, or what is wrong with it. -/
def normalize (c : Command) : Except Text Command :=
  if c.name.isEmpty then .error "command without a name"
  else do
    let params ← c.params.zipIdx.mapM fun (p, i) => normalizeParameter c.name i p
    return { c with params }

end Command

/-- A table of commands, sorted by name. -/
structure Registry where
  commands : List Command
  deriving Inhabited

namespace Registry

/-- What a look-up answers: the command with exactly the given name, and those whose names start
with it. -/
structure Match where
  exact : Option Command
  starting : List Command
  deriving Inhabited

/-- Inserts a command before the first one whose name comes after its own. -/
def insertCommand (c : Command) : List Command → List Command
  | [] => [c]
  | d :: ds => if Text.before c.name d.name then c :: d :: ds else d :: insertCommand c ds

/-- Sorts commands by name; commands of one name keep their order. -/
def sortCommands (cs : List Command) : List Command :=
  cs.foldl (fun sorted c => insertCommand c sorted) []

def ofList (cs : List Command) : Registry := ⟨sortCommands cs⟩

def replace (_ : Registry) (cs : List Command) : Registry := ofList cs

/-- The table with a command added in place of all commands of its name. -/
def add (r : Registry) (c : Command) : Registry :=
  ofList (r.commands.filter (fun d => d.name != c.name) ++ [c])

def clone (r : Registry) : Registry := ofList r.commands

/-- The command named `name` and the commands whose names start with it, found by binary search. -/
def lookup (r : Registry) (name : Text) : Match :=
  let first := Search.lowerBound r.commands.length fun i =>
    !Text.before (r.commands.getD i default).name name
  let starting := (r.commands.drop first).takeWhile fun c => name.isPrefixOf c.name
  ⟨starting.find? fun c => c.name == name, starting⟩

def has (r : Registry) (name : Text) : Bool := (r.lookup name).exact.isSome

def names (r : Registry) : List Text := r.commands.map (·.name)

def size (r : Registry) : Nat := r.commands.length

/-- The commands that are implemented. -/
def nativeNames : List Text := ["cat", "echo"]

/-- Like `lookup`, but only a command that is implemented counts as an exact match. -/
def lookupNative (r : Registry) (name : Text) : Match :=
  let m := r.lookup name
  { m with exact := m.exact.filter fun c => nativeNames.contains c.name }

/-- The table of commands that were read, or what is wrong with the first bad one. -/
def ofUnchecked (cs : List Command) : Except Text Registry := do
  return ofList (← cs.mapM Command.normalize)

end Registry
end Bareword
