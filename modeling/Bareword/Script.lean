import Bareword.Machine.Run
import Bareword.Program.OfTree
import Bareword.Tree.Grammar
import Bareword.Value.Datum

/-! # Scripts

From the text of a script to its value.

* `Script.parse`: the tree of a script.
* `Script.compile`: the program of a script.
* `Script.machine`: the machine that a program runs on, with the builtins that a script starts with.
* `Script.eval`: the value of a script.
-/

namespace Bareword
set_option autoImplicit false
open Report (Stop)

/-- A script with what it is read and run with. -/
structure Script where
  source : Text
  filename : Text := []
  /-- The table of commands, if there is one. -/
  registry : Option Registry := none
  /-- Variables that the script is given. -/
  globals : List (Text × Datum) := []
  /-- Whether work on the script was called off before it began. -/
  cancelled : Bool := false
  /-- What is said of work that was called off. -/
  reason : Text := Report.calledOff

namespace Script

/-- What the script is parsed with. The commands that are built in are known as commands. -/
def setup (s : Script) : Tree.Parsing.Setup :=
  { src := s.source
    filename := s.filename
    isCommand := s.registry.map fun r name => (r.lookupNative name).exact.isSome
    cancelled := s.cancelled
    reason := s.reason }

def parse (s : Script) : Tree.Parsed := Tree.parse s.setup

def compile (s : Script) : Except Stop Program :=
  let parsed := s.parse
  match parsed.failure? with
  | some failure => .error (.failed failure)
  | none => Program.ofTree s.source s.filename (some parsed.tree)

/-- The builtins that a table of commands makes available, as variables. -/
def builtins (registry : Option Registry) : List (Text × Value) :=
  (Builtin.all registry).map fun b => (b.name, .builtin b)

/-- The machine of a program with some variables and others that are given. -/
def machineWith (vars : List (Text × Value)) (globals : List (Text × Datum)) (p : Program) :
    Except Stop Machine :=
  match Value.ofGlobals globals with
  | .error message => .error (.fault (.plain message))
  | .ok given => Machine.ofProgram (vars ++ given) p

def machine (registry : Option Registry) (globals : List (Text × Datum)) (p : Program) :
    Except Stop Machine :=
  machineWith (builtins registry) globals p

structure Result where
  value : Except Stop Value
  output : Text := []

/-- What comes of a program. Without enough fuel there is no answer. -/
def runOn (m : Except Stop Machine) (start : Machine.Start) : Option Result :=
  match m with
  | .error e => some ⟨.error e, []⟩
  | .ok m => (m.run start).map fun o => ⟨o.result, o.output⟩

/-- The value of a script. Without enough fuel there is no answer. -/
def eval (s : Script) (host : Host) (fuel : Nat) : Option Result :=
  match s.compile with
  | .error e => some ⟨.error e, []⟩
  | .ok p =>
    runOn (machine s.registry s.globals p) { host, fuel, cancelled := s.cancelled, reason := s.reason }

end Script
end Bareword
