import Bareword.Text.Basic

/-! # Operations

The operations of the machine. Each has a code, which is what a stored program holds, a mnemonic
and a kind of operand. Codes that are given to no operation are kept as they are, since a program
may come from outside.

* `Opcode.code`, `Opcode.ofCode`: the code of an operation and the operation of a code.
* `Opcode.mnemonic`: the name in listings.
* `Opcode.operand`: what the operand holds.
-/

namespace Bareword
set_option autoImplicit false

/-- What the operand of an operation holds. -/
inductive OperandKind where
  /-- Nothing: the inputs come from the stack. -/
  | none
  /-- A literal. -/
  | value
  /-- The name of a variable, a field or a label. -/
  | name
  /-- The target of a jump. -/
  | target
  /-- A parameter list and the place of a body. -/
  | function
  /-- A number of stack entries. -/
  | count
  deriving DecidableEq, Repr

/-- The place of an operand kind in their order. -/
def OperandKind.index : OperandKind → Nat
  | .none => 0
  | .value => 1
  | .name => 2
  | .target => 3
  | .function => 4
  | .count => 5

inductive Opcode where
  | halt
  | call
  | tryCall
  | return
  | makeFunction
  | jump
  | jumpIfFalse
  | jumpIfTrue
  | push
  | tryLoad
  | store
  | dotGet
  | add
  | sub
  | mul
  | div
  | eq
  | neq
  | lt
  | gt
  | lte
  | gte
  | dup
  | pop
  | strConcat
  /-- Marks a place in a listing; linking removes it. -/
  | label
  /-- A code that is given to no operation. -/
  | undefined (code : UInt8)
  deriving DecidableEq, Repr, Inhabited

namespace Opcode

/-- The operations that have a mnemonic. -/
def all : List Opcode :=
  [.halt, .call, .tryCall, .return, .makeFunction, .jump, .jumpIfFalse, .jumpIfTrue, .push,
    .tryLoad, .store, .dotGet, .add, .sub, .mul, .div, .eq, .neq, .lt, .gt, .lte, .gte, .dup,
    .pop, .strConcat, .label]

def code : Opcode → UInt8
  | .halt => 1
  | .call => 2
  | .tryCall => 3
  | .return => 4
  | .makeFunction => 5
  | .jump => 10
  | .jumpIfFalse => 11
  | .jumpIfTrue => 12
  | .push => 20
  | .tryLoad => 21
  | .store => 22
  | .dotGet => 23
  | .add => 30
  | .sub => 31
  | .mul => 32
  | .div => 33
  | .eq => 40
  | .neq => 41
  | .lt => 42
  | .gt => 43
  | .lte => 44
  | .gte => 45
  | .dup => 50
  | .pop => 51
  | .strConcat => 60
  | .label => 255
  | .undefined c => c

def ofCode (c : UInt8) : Opcode := (all.find? (·.code == c)).getD (.undefined c)

/-- The name of an operation, if it has one. -/
def mnemonic? : Opcode → Option String
  | .halt => some "HALT"
  | .call => some "CALL"
  | .tryCall => some "TRY_CALL"
  | .return => some "RETURN"
  | .makeFunction => some "MAKE_FUNCTION"
  | .jump => some "JUMP"
  | .jumpIfFalse => some "JUMP_IF_FALSE"
  | .jumpIfTrue => some "JUMP_IF_TRUE"
  | .push => some "PUSH"
  | .tryLoad => some "TRY_LOAD"
  | .store => some "STORE"
  | .dotGet => some "DOT_GET"
  | .add => some "ADD"
  | .sub => some "SUB"
  | .mul => some "MUL"
  | .div => some "DIV"
  | .eq => some "EQ"
  | .neq => some "NEQ"
  | .lt => some "LT"
  | .gt => some "GT"
  | .lte => some "LTE"
  | .gte => some "GTE"
  | .dup => some "DUP"
  | .pop => some "POP"
  | .strConcat => some "STR_CONCAT"
  | .label => some "LABEL"
  | .undefined _ => none

/-- The name that stands for an operation without one. -/
def undefinedName : String := "INVALID"

/-- The name of an operation as it is shown. -/
def mnemonic (op : Opcode) : String := op.mnemonic?.getD undefinedName

def ofMnemonic? (s : String) : Option Opcode := all.find? (·.mnemonic? == some s)

/-- What the operand of an operation holds. -/
def operand : Opcode → OperandKind
  | .push => .value
  | .tryCall | .tryLoad | .store | .dotGet | .label => .name
  | .jump | .jumpIfFalse | .jumpIfTrue => .target
  | .makeFunction => .function
  | .strConcat => .count
  | _ => .none

/-- Whether the operation transfers control to a target. -/
def isJump (op : Opcode) : Bool := op.operand == .target

end Opcode
end Bareword
