import Bareword.Program.Basic
import Bareword.Value.Args

/-! # Environments

Every call of a function has an environment for its variables, which lies in the environment that
the function was made in. The outermost environment has the global variables.

* `Store.get?`: the value of a name, looked for from an environment outward.
* `Store.set`: an assignment in an environment.
* `Store.add`: a new environment.
* `Store.names`: the names that can be seen from an environment.
-/

namespace Bareword
set_option autoImplicit false

/-- The variables of an environment and the environment around it. -/
structure Env where
  vars : Closure.Vars := []
  parent : Option Nat := none
  deriving Inhabited

/-- The environments, by number. An environment lies only in ones with smaller numbers. -/
abbrev Store := Array Env

namespace Store

/-- The number of the environment with the global variables. -/
def globals : Nat := 0

/-- Looks for a name from an environment outward. The fuel bounds the number of environments, which is
enough for all of them since their numbers get smaller. -/
def find? (s : Store) (name : Text) : Nat → Nat → Option Value
  | 0, _ => none
  | fuel + 1, e =>
    match s[e]? with
    | none => none
    | some env =>
      match env.vars.lookup name with
      | some v => some v
      | none =>
        match env.parent with
        | none => none
        | some p => if p < e then find? s name fuel p else none

def get? (s : Store) (e : Nat) (name : Text) : Option Value := s.find? name (e + 1) e

/-- Variables with a name assigned. -/
def assign (name : Text) (value : Value) : Closure.Vars → Closure.Vars
  | [] => [(name, value)]
  | (n, v) :: rest => if n = name then (name, value) :: rest else (n, v) :: assign name value rest

def set (s : Store) (e : Nat) (name : Text) (value : Value) : Store :=
  s.modify e fun env => { env with vars := assign name value env.vars }

def add (s : Store) (parent : Nat) (vars : Closure.Vars) : Nat × Store :=
  (s.size, s.push ⟨vars, some parent⟩)

/-- The names of the variables of an environment and of those around it. -/
def namesFrom (s : Store) : Nat → Nat → List Text
  | 0, _ => []
  | fuel + 1, e =>
    match s[e]? with
    | none => []
    | some env =>
      env.vars.map (·.1) ++
        match env.parent with
        | none => []
        | some p => if p < e then namesFrom s fuel p else []

/-- The names that can be seen from an environment, temporary ones left out. -/
def names (s : Store) (e : Nat) : List Text :=
  (s.namesFrom (e + 1) e).filter fun n => !Program.isTemporary n

end Store
end Bareword
