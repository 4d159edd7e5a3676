import Bareword.Machine.Stack
import Bareword.Machine.Store
import Bareword.Value.Native

/-! # Steps of the machine

The machine runs a linked program on one stack of values. Variables live in environments.

* `Code`: the instructions of a linked program with the values that they push.
* `State`: where the machine is and what it holds.
* `Exec`: an action on the state, which may stop in trouble and then keeps the state it had.
* `step`: what the next instruction does.
-/

namespace Bareword.Machine
set_option autoImplicit false
-- Powers are those of the core library, whatever instances are imported later.
attribute [local instance (high)] instPowNat
open Report (RuntimeFault)

/-- The instructions of a linked program, with the values that they push. -/
structure Code where
  instructions : Array Instruction
  constants : Array Value
  deriving Inhabited

/-- What a return goes back to: an instruction, a height of the stack and an environment. -/
structure Frame where
  returnTo : Int64
  height : Nat
  env : Nat
  deriving DecidableEq, Repr, Inhabited

/-- Where the machine is and what it holds. -/
structure State where
  /-- The index of the next instruction. -/
  ip : Int64 := 0
  stack : Stack := {}
  /-- The calls that have not returned, the last one first. -/
  frames : List Frame := []
  env : Nat := Store.globals
  store : Store := #[]
  /-- The number of functions made. -/
  made : Nat := 0
  output : Text := []
  deriving Inhabited

/-- Why the machine cannot go on. -/
inductive Trouble where
  | fault (e : RuntimeFault)
  /-- The instruction has no meaning here. -/
  | breakdown
  | awaiting (path : Text)
  deriving DecidableEq

/-- An action on the state. -/
abbrev Exec := EStateM Trouble State

/-- How many calls may be nested, the main program counted. -/
def maxFrames : Nat := 1024

/-- The most values that can be gathered at once. -/
def maxGathered : Int := 2 ^ (44 : Nat)

/-! ## The stack -/

def fail {α : Type} (code : Report.Code) (message : Text) : Exec α :=
  throw (.fault (.of code message))

def push (v : Value) : Exec Unit := do
  let s ← get
  match s.stack.push? v with
  | none => fail .stackOverflow "stack overflow"
  | some stack => set { s with stack }

def pop : Exec Value := do
  let s ← get
  match s.stack.pop? with
  | none => fail .stackUnderflow "stack underflow"
  | some (v, stack) =>
    set { s with stack }
    return v

def top : Exec Value := do
  match (← get).stack.top? with
  | none => fail .stackUnderflow "stack underflow"
  | some v => return v

/-- Takes `n` values from the stack and puts them in front of others, the lowest first. -/
def popInto : Nat → List Value → Exec (List Value)
  | 0, values => return values
  | n + 1, values => do
    let v ← pop
    popInto n (v :: values)

/-- Breaks down on what is no value. -/
def present : Value → Exec Value
  | .hole => throw .breakdown
  | v => return v

/-! ## Operations -/

/-- The sign of an operation in messages. -/
def symbol : Opcode → Text
  | .add => "+"
  | .sub => "-"
  | .mul => "*"
  | .div => "/"
  | .lt => "<"
  | .gt => ">"
  | .lte => "<="
  | .gte => ">="
  | _ => []

/-- The result of an operation of arithmetic. -/
def arithmetic (op : Opcode) (a b : Value) : Exec Value :=
  match a, b with
  | .number x, .number y =>
    match op with
    | .add => return .number (x + y)
    | .sub => return .number (x - y)
    | .mul => return .number (x * y)
    | _ => if y == 0 then fail .divisionByZero "division by zero" else return .number (x / y)
  | a, b => do
    let a ← present a
    let b ← present b
    fail .typeMismatch ("unsupported operand types for " ++ symbol op ++ ": " ++ a.typeName ++
      " and " ++ b.typeName)

/-- The order of two numbers; what cannot be ordered counts as equal. -/
def orderNumbers (x y : Float) : Ordering := if x < y then .lt else if y < x then .gt else .eq

/-- Whether an order fits a comparison. -/
def fits (op : Opcode) (o : Ordering) : Bool :=
  match op with
  | .lt => o == .lt
  | .gt => o == .gt
  | .lte => o != .gt
  | _ => o != .lt

/-- The result of a comparison by order. -/
def compare (op : Opcode) (a b : Value) : Exec Value :=
  match a, b with
  | .number x, .number y => return .bool (fits op (orderNumbers x y))
  | .text s, .text t => return .bool (fits op (Text.cmp s t))
  | a, b => do
    let a ← present a
    let b ← present b
    fail .typeMismatch ("unable to compare " ++ a.typeName ++ " and " ++ b.typeName ++ " with " ++
      symbol op)

/-- Whether two values are equal. Null has to be compared with a value. -/
def equal (a b : Value) : Exec Bool := do
  let a ← present a
  match a with
  | .null =>
    let b ← present b
    return a.equals b
  | _ => return a.equals b

def fieldOf (name : Text) (base : Value) : Exec Value := do
  match ← present base with
  | .record fields =>
    match fields.lookup name with
    | some v => return v
    | none => fail .invalidOperation ("field " ++ Text.quoted name ++ " not found on map")
  | v => fail .typeMismatch ("cannot read field " ++ Text.quoted name ++ " of " ++ v.typeName)

/-- The value of a name, or the name itself. -/
def load (name : Text) : Exec Value := do
  let s ← get
  return (s.store.get? s.env name).getD (.text name)

/-! ## Calls -/

/-- The result of a builtin, whose text is written. -/
def native (host : Host) (b : Builtin) (args : Args) : Exec Value :=
  match b.call host args with
  | .ok (v, written) => do
    modify fun s => { s with output := s.output ++ written }
    return v
  | .error (.fault e) => throw (.fault e)
  | .error (.plain message) => fail .invalidOperation message
  | .error .noValue => throw .breakdown
  | .error (.awaiting path) => throw (.awaiting path)

def enter (c : Closure) (args : Args) : Exec Unit := do
  let s ← get
  if s.frames.length + 1 ≥ maxFrames then
    fail .stackOverflow ("maximum call depth of " ++ Text.ofNat maxFrames ++ " exceeded")
  else
    match c.bind args with
    | .error e => throw (.fault e)
    | .ok vars =>
      let (env, store) := s.store.add c.env vars
      set { s with
        ip := c.entry, env, store, frames := ⟨s.ip, s.stack.height, s.env⟩ :: s.frames }

/-- Calls a value. A name that has no value is a text, for which similar names are suggested. -/
def call (host : Host) (callee : Value) (args : Args) : Exec Unit := do
  match ← present callee with
  | .closure c => enter c args
  | .builtin b => do push (← native host b args)
  | .text t => do
    let s ← get
    throw (.fault
      { code := Report.Code.notCallable.text
        message := Text.quoted t ++ " is not a function"
        hint := Report.didYouMean (Report.suggest t (s.store.names s.env)) })
  | v => fail .notCallable (v.typeName ++ " is not callable")

/-- The count that a number stands for. Numbers past the largest integer all stand for the smallest
one. -/
def countOf? (x : Float) : Option Int :=
  let smallest : Int := -2 ^ (63 : Nat)
  match Binary.parts x with
  | .nan => none
  | .infinite negative => if negative then none else some smallest
  | .finite negative m q =>
    if (negative ∧ m ≠ 0) ∨ ¬ Binary.isIntegral x then none
    else
      let n := Binary.integerPart m q
      some (if n < 2 ^ (63 : Nat) then n else smallest)

def popCount : Exec Int := do
  let v ← present (← pop)
  let n :=
    match v with
    | .number x => countOf? x
    | _ => none
  match n with
  | some n => return n
  | none => fail .invalidOperation "malformed call: invalid argument count"

/-- Takes `n` values with their names from the stack. Of two values of one name the lower one
counts. -/
def popNamed : Nat → List (Text × Value) → Exec (List (Text × Value))
  | 0, named => return named
  | n + 1, named => do
    let value ← pop
    match ← present (← pop) with
    | .text name => popNamed n (Value.setField name value named)
    | _ => fail .invalidOperation "malformed call: argument name is not a string"

/-- Takes the arguments of a call and the callee from the stack, and calls it. -/
def callTop (host : Host) : Exec Unit := do
  let named ← popCount
  let positional ← popCount
  if positional < 0 ∨ positional > maxGathered then throw .breakdown
  else
    let namedArgs ← popNamed named.toNat []
    let positionalArgs ← popInto positional.toNat []
    call host (← pop) ⟨positionalArgs, namedArgs⟩

/-- Goes back to where the function was called, with its value on the stack. -/
def leave : Exec Unit := do
  let result ← pop
  let s ← get
  match s.frames with
  | [] => fail .invalidOperation "return outside of a function"
  | f :: frames =>
    set { s with ip := f.returnTo, stack := s.stack.resize f.height, env := f.env, frames }
    push result

/-- Joins the texts of `n` values. -/
def concat (n : Int64) : Exec Unit := do
  if n < 0 ∨ n.toInt > maxGathered then throw .breakdown
  else
    let parts ← popInto n.toInt.toNat []
    if parts.any (·.isHole) then throw .breakdown
    else push (.text (Value.joinAll [] parts))

def jumpTo (target : Int64) : Exec Unit := modify fun s => { s with ip := target }

/-- A name by itself: a function is called, and another value is put on the stack. -/
def bare (host : Host) (name : Text) : Exec Unit := do
  let s ← get
  match s.store.get? s.env name with
  | none => push (.text name)
  | some (.closure c) => call host (.closure c) {}
  | some (.builtin b) => call host (.builtin b) {}
  | some v => push v

/-- Makes a function in the current environment. -/
def makeFunction (i : Instruction) : Exec Unit := do
  let s ← get
  set { s with made := s.made + 1 }
  push (.closure ⟨s.made, i.params, i.target, s.env⟩)

/-! ## Instructions -/

/-- What an instruction does that was found at `index`. The answer is whether the machine halts. -/
def execute (code : Code) (host : Host) (index : Nat) (i : Instruction) : Exec Bool := do
  match i.op with
  | .halt => return true
  | .push => push (code.constants.getD index .hole)
  | .tryLoad => push (← load i.name)
  | .tryCall => bare host i.name
  | .store =>
    let v ← top
    modify fun s => { s with store := s.store.set s.env i.name v }
  | .dotGet => push (← fieldOf i.name (← pop))
  | .add | .sub | .mul | .div =>
    let b ← pop
    let a ← pop
    push (← arithmetic i.op a b)
  | .eq =>
    let b ← pop
    let a ← pop
    push (.bool (← equal a b))
  | .neq =>
    let b ← pop
    let a ← pop
    push (.bool (!(← equal a b)))
  | .lt | .gt | .lte | .gte =>
    let b ← pop
    let a ← pop
    push (← compare i.op a b)
  | .dup => push (← top)
  | .pop => let _ ← pop
  | .strConcat => concat i.count
  | .jump => jumpTo i.target
  | .jumpIfFalse =>
    let v ← present (← pop)
    if !v.isTruthy then jumpTo i.target
  | .jumpIfTrue =>
    let v ← present (← pop)
    if v.isTruthy then jumpTo i.target
  | .makeFunction => makeFunction i
  | .call => callTop host
  | .return => leave
  | .label | .undefined _ =>
    fail .invalidOperation ("unsupported instruction " ++ Text.ofString i.op.mnemonic)
  return false

def Code.get? (code : Code) (ip : Int64) : Option Instruction :=
  if ip < 0 then none else code.instructions[ip.toInt.toNat]?

/-- The next step. The index moves on before the instruction is looked at, so that a call returns to
the instruction after it. -/
def step (code : Code) (host : Host) : Exec Bool := do
  let s ← get
  match code.get? s.ip with
  | none =>
    fail .invalidOperation
      ("instruction pointer " ++ Text.decimal s.ip.toInt ++ " out of range")
  | some i =>
    set { s with ip := s.ip + 1 }
    execute code host s.ip.toInt.toNat i

end Bareword.Machine
