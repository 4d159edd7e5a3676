import Bareword.Machine.Step
import Bareword.Program.Link
import Bareword.Report.Fault

/-! # Running programs

A machine holds a linked program and its global variables, and it can run the program any number of
times. Variables that a run assigns are there in the next one.

* `Machine.ofProgram`: the machine of a program.
* `Machine.run`: a run, which answers what came of it, what was written and the machine after it.
* `Machine.global?`, `Machine.globalNames`: the global variables.
-/

namespace Bareword
set_option autoImplicit false
open Report (RuntimeFault Fault Stop Code)

namespace Machine

/-- Repeats steps until the machine halts or cannot go on. Without enough fuel there is no answer.
-/
def loop (code : Code) (host : Host) : Nat → State → Option (Except Trouble Unit × State)
  | 0, _ => none
  | fuel + 1, s =>
    match step code host s with
    | .ok true s => some (.ok (), s)
    | .ok false s => loop code host fuel s
    | .error e s => some (.error e, s)

end Machine

/-- A linked program with its global variables. -/
structure Machine where
  program : Program
  code : Machine.Code
  store : Store
  /-- What earlier runs left on the stack. -/
  stack : Stack := {}
  made : Nat := 0
  /-- Whether a run broke down, so that no other one can start. -/
  isRunning : Bool := false
  deriving Inhabited

namespace Machine

/-- How a run is started. -/
structure Start where
  host : Host
  /-- How many steps are taken at most. -/
  fuel : Nat
  /-- Whether the run was called off before it began. -/
  cancelled : Bool := false
  /-- What is said of a run that was called off. -/
  reason : Text := Report.calledOff
  /-- After how many steps it is looked whether the run was called off; never, if not positive. -/
  checkInterval : Int := 1000

/-- The fault with the place of the instruction at an index, if the place is known. -/
def locate (p : Program) (index : Int) (e : RuntimeFault) : RuntimeFault :=
  match p.instructions[index.toNat]? with
  | some i =>
    if e.isLocated ∨ index < 0 ∨ p.source.isEmpty then e
    else { e with location := ⟨p.filename, p.source, i.span⟩ }
  | none => e

/-- The values that the instructions push. The answer is the fault of the first literal without a
value, with its index. -/
def constants (n : Nat) : List Instruction → Except (Nat × RuntimeFault) (List Value)
  | [] => .ok []
  | i :: rest =>
    let value := if i.op = .push then Value.ofLiteral i.value else .ok .hole
    match value with
    | .error message =>
      .error (n, .of .invalidOperation
        ("invalid literal " ++ i.value.listing ++ ": " ++ message))
    | .ok v => (constants (n + 1) rest).map (v :: ·)

/-- The machine of a program, which is linked first. -/
def ofProgram (globals : List (Text × Value)) (p : Program) : Except Stop Machine :=
  match p.link with
  | .error e => .error (.fault (.compiling e))
  | .ok linked =>
    match constants 0 linked.instructions with
    | .error (index, e) => .error (.fault (.running (locate linked index e)))
    | .ok values =>
      .ok { program := linked
            code := ⟨linked.instructions.toArray, values.toArray⟩
            store := #[{ vars := globals.foldl (fun vars (n, v) => Store.assign n v vars) [] }] }

/-- The state at the start of a run. The stack is empty, and its places hold what they held. -/
def startState (m : Machine) : State :=
  { stack := m.stack.lower m.stack.height, store := m.store, made := m.made }

/-- The fault of a run that was called off. -/
def cancelledFault (reason : Text) : RuntimeFault := .of .cancelled reason

/-- The stop that trouble leads to. -/
def stopOf (p : Program) (ip : Int64) : Trouble → Stop
  | .fault e => .fault (.running (locate p (ip.toInt - 1) e))
  | .breakdown => .breakdown
  | .awaiting path => .awaiting path

/-- What came of a run, and the machine after it. -/
structure Outcome where
  result : Except Stop Value
  output : Text := []
  machine : Machine

/-- A run. Without enough fuel there is no answer. -/
def run (m : Machine) (start : Start) : Option Outcome :=
  if m.isRunning then some { result := .error (.fault (.plain "vm is already running")), machine := m }
  else if start.cancelled ∧ start.checkInterval > 0 then
    some { result := .error (.fault (.running (cancelledFault start.reason))),
           machine := { m with stack := m.startState.stack } }
  else
    (loop m.code start.host start.fuel m.startState).map fun (ending, s) =>
      { result :=
          match ending with
          | .ok () => .ok (s.stack.top?.getD .null)
          | .error e => .error (stopOf m.program s.ip e)
        output := s.output
        machine :=
          { m with
            store := s.store, stack := s.stack, made := s.made
            isRunning := match ending with | .error .breakdown => true | _ => false } }

/-- A global variable. Temporary ones are not shown. -/
def global? (m : Machine) (name : Text) : Option Value :=
  if Program.isTemporary name then none
  else m.store[Store.globals]?.bind fun env => env.vars.lookup name

/-- The names of the global variables, in order. -/
def globalNames (m : Machine) : List Text := Text.sort (m.store.names Store.globals)

/-- What is wrong with asking for a global variable that is not there. -/
def noGlobal (name : Text) : Text := "global not found: " ++ Text.quoted name

end Machine
end Bareword
