import Bareword.Program.Literal
import Bareword.Program.Opcode
import Bareword.Span

/-! # Instructions

An instruction is an operation with room for the operands of every operation; which of them it uses
follows from the operation.

* `TargetMode`: how an instruction names the place it leads to.
* `Instruction.listing`: an instruction as one line of a listing.
* `Instruction.size`: the number of instructions that are not labels.
-/

namespace Bareword
set_option autoImplicit false

/-- How an instruction names the place it leads to. -/
inductive TargetMode where
  /-- It leads nowhere. -/
  | none
  /-- The label with the instruction's label name. -/
  | label
  /-- So many instructions further on, labels not counted. -/
  | relative
  /-- The instruction with this index. -/
  | absolute
  /-- A number that stands for no mode. -/
  | other (code : UInt8)
  deriving DecidableEq, Repr, Inhabited

namespace TargetMode

def code : TargetMode → UInt8
  | .none => 0
  | .label => 1
  | .relative => 2
  | .absolute => 3
  | .other c => c

def ofCode (c : UInt8) : TargetMode :=
  if c = 0 then .none
  else if c = 1 then .label
  else if c = 2 then .relative
  else if c = 3 then .absolute
  else .other c

end TargetMode

/-- An instruction, with the source text that it was compiled from. -/
structure Instruction where
  op : Opcode
  value : Literal := {}
  name : Text := []
  params : List Text := []
  label : Text := []
  mode : TargetMode := .none
  target : Int64 := 0
  count : Int64 := 0
  span : Span := .zero
  deriving BEq, Inhabited

namespace Instruction

def isLabel (i : Instruction) : Bool := i.op == .label

/-- The target as a listing shows it. -/
def targetText (i : Instruction) : Text :=
  match i.mode with
  | .label => i.label
  | .relative => "#" ++ Text.decimal i.target.toInt
  | .absolute => "@" ++ Text.decimal i.target.toInt
  | .none | .other _ => "?"

/-- The instruction as one line of a listing. -/
def listing (i : Instruction) : Text :=
  match i.op.operand with
  | .value => i.op.mnemonic ++ " " ++ i.value.listing
  | .name => if i.isLabel then i.name ++ ":" else i.op.mnemonic ++ " " ++ i.name
  | .target => i.op.mnemonic ++ " " ++ i.targetText
  | .function => i.op.mnemonic ++ " (" ++ Text.join " " i.params ++ ") " ++ i.targetText
  | .count => i.op.mnemonic ++ " " ++ Text.decimal i.count.toInt
  | .none => i.op.mnemonic

/-- The number of instructions that are not labels. -/
def size (is : List Instruction) : Nat := is.countP fun i => !i.isLabel

end Instruction
end Bareword
