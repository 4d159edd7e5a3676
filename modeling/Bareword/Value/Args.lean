import Bareword.Report.Suggest
import Bareword.Report.Fault
import Bareword.Value.Basic

/-! # Arguments

The arguments of a call, and how they are matched with what is called.

* `Args`: the values by position and the values by name.
* `Closure.bind`: the variables that a call of a function starts with.
* `Builtin.unknownName?`: an argument name that a builtin does not accept.
-/

namespace Bareword
set_option autoImplicit false
open Report (Code RuntimeFault)

/-- The arguments of a call. The named ones are sorted by name, and each name is there once. -/
structure Args where
  positional : List Value := []
  named : List (Text × Value) := []
  deriving Inhabited

namespace Args

/-- The argument of a name. -/
def named? (a : Args) (name : Text) : Option Value := a.named.lookup name

/-- The argument of a name, or else the one at an index. -/
def get? (a : Args) (name : Text) (index : Int) : Option Value :=
  match a.named? name with
  | some v => some v
  | none => if index < 0 then none else a.positional[index.toNat]?

/-- The names of the named arguments, in order. -/
def names (a : Args) : List Text := a.named.map (·.1)

end Args

/-- A fault about an argument name, which hints at names that are close. -/
def argFault (message name : Text) (known : List Text) : RuntimeFault :=
  { code := Code.unknownArg.text, message,
    hint := Report.didYouMean (Report.suggest name known) }

namespace Closure

abbrev Vars := List (Text × Value)

/-- Gives the parameters that have no value the positional arguments in turn, and null when these
are used up. The answer has the arguments that are left over. -/
def fill : List Text → Vars → List Value → Vars × List Value
  | [], vars, left => (vars, left)
  | p :: ps, vars, left =>
    if (vars.lookup p).isSome then fill ps vars left
    else
      match left with
      | [] => fill ps (vars ++ [(p, .null)]) []
      | v :: left => fill ps (vars ++ [(p, v)]) left

/-- The variables that a call starts with. Named arguments are bound first, the positional ones fill
the remaining parameters from left to right, and parameters left over are null. -/
def bind (c : Closure) (args : Args) : Except RuntimeFault Vars :=
  match args.names.find? fun n => !c.params.contains n with
  | some name =>
    .error (argFault ("unknown argument " ++ Text.quoted name) name c.params)
  | none =>
    let (vars, left) := fill c.params args.named args.positional
    if left.isEmpty then .ok vars
    else
      .error (.of .unknownArg
        ("too many arguments: " ++ (Value.closure c).display ++ " takes " ++
          Text.ofNat c.params.length ++ ", " ++
          Text.ofNat (args.positional.length + args.named.length) ++ " given"))

end Closure

namespace Builtin

/-- A fault if an argument has a name that the builtin does not accept. -/
def unknownName? (b : Builtin) (args : Args) : Option RuntimeFault :=
  (args.names.find? fun n => !b.params.contains n).map fun name =>
    argFault (b.name ++ " does not accept the argument " ++ Text.quoted name) name b.params

end Builtin
end Bareword
