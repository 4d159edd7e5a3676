import Bareword.Registry.Basic
import Bareword.Report.Fault
import Bareword.Toml.Document

/-! # Command tables from TOML

A document lists commands under the key `command`, each a table with a name and a list of arguments.
Keys that mean nothing are passed over, and letter case does not matter in keys.

* `Registry.ofToml`: the table of commands that a text describes.
-/

namespace Bareword
set_option autoImplicit false

namespace Toml

/-- A code point with letter case left out; two signs stand for the letters that they look like. -/
def foldCode (c : Nat) : Nat :=
  if 'A'.toNat ≤ c ∧ c ≤ 'Z'.toNat then c + 32
  else if c = 0x17F then 's'.toNat
  else if c = 0x212A then 'k'.toNat
  else c

/-- Whether two keys are the same but for letter case. -/
def sameKey (a b : Text) : Bool :=
  (Text.runes a).map (fun r => foldCode r.code) == (Text.runes b).map fun r => foldCode r.code

/-- The value under a key, or else under a key that differs from it only in letter case. -/
def find? (key : Text) (fields : List (Text × Toml)) : Option Toml :=
  match fields.lookup key with
  | some v => some v
  | none => (fields.find? fun (k, _) => sameKey key k).map (·.2)

/-- The text under a key, empty if the key is missing; nothing if it is no text. -/
def textAt? (key : Text) (fields : List (Text × Toml)) : Option Text :=
  match find? key fields with
  | none => some []
  | some v => v.text?

/-- The list under a key, if the key is there; nothing if it is no list. -/
def listAt? (key : Text) (fields : List (Text × Toml)) : Option (Option (List Toml)) :=
  match find? key fields with
  | none => some none
  | some v => v.items?.map some

end Toml

/-- The default that a value stands for. -/
def Setting.ofToml : Toml → Setting
  | .flag b => .flag b
  | .text t => .text t
  | .integer n => .integer n
  | .number x => .number x
  | v => .other v.shown

/-- The parameter that a value describes, if its fields have the right types. -/
def Parameter.ofToml? (v : Toml) : Option Parameter := do
  let fields ← v.fields?
  let named ←
    match Toml.find? "named" fields with
    | none => pure false
    | some v => v.flag?
  return {
    name := ← Toml.textAt? "name" fields
    type := ← Toml.textAt? "type" fields
    description := ← Toml.textAt? "description" fields
    named
    default := (Toml.find? "default" fields).map Setting.ofToml }

/-- The command that a value describes, if its fields have the right types. -/
def Command.ofToml? (v : Toml) : Option Command := do
  let fields ← v.fields?
  let args ← Toml.listAt? "args" fields
  return {
    name := ← Toml.textAt? "name" fields
    description := ← Toml.textAt? "description" fields
    execute := ← Toml.textAt? "execute" fields
    params := ← (args.getD []).mapM Parameter.ofToml?
    listsNone := args.any (·.isEmpty) }

namespace Registry

/-- The commands that a text describes. -/
def commandsOfToml? (t : Text) : Option (List Command) := do
  let fields ← (← Toml.parse? t).fields?
  let commands ← Toml.listAt? "command" fields
  (commands.getD []).mapM Command.ofToml?

/-- The table of commands that a text describes, or what is wrong with it. -/
def ofToml (t : Text) : Except Report.Fault Registry :=
  match commandsOfToml? t with
  | none => .error (.malformed .toml)
  | some cs =>
    match ofUnchecked cs with
    | .error message => .error (.plain message)
    | .ok r => .ok r

end Registry
end Bareword
