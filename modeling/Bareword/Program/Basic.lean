import Bareword.Program.Instruction

/-! # Programs

A program is a sequence of instructions: the main part, which ends in a halt, and after it the body
of every function, each under a label of its own.

* `Program.listing`: a program as text, one instruction to a line.
* `Program.sameCode`: whether two programs hold the same instructions.
* `Program.isTemporary`: whether a name is one that only compiled code uses.
-/

namespace Bareword
set_option autoImplicit false

/-- A program, with the source that it was compiled from. -/
structure Program where
  instructions : List Instruction
  /-- The labels of the function bodies, in order. -/
  functions : List Text := []
  source : Text := []
  filename : Text := []
  /-- Whether every target is an instruction index. -/
  linked : Bool := false
  deriving Inhabited

namespace Program

/-- What the names of temporary variables start with. -/
def temporaryStem : Text := "_pipe_"

/-- Whether a name is that of a temporary variable. -/
def isTemporary (name : Text) : Bool := temporaryStem.isPrefixOf name

/-- The lines of some instructions. A label at the head of a function body starts an indented
part. -/
def lines (functions : List Text) : Bool → List Instruction → List Text
  | _, [] => []
  | inFunction, i :: rest =>
    if i.isLabel then
      i.listing :: lines functions (inFunction || functions.contains i.name) rest
    else
      ((if inFunction then Text.spaces 2 else []) ++ i.listing) :: lines functions inFunction rest

def listing (p : Program) : Text :=
  (lines p.functions false p.instructions).flatMap (· ++ [Text.byte '\n'])

/-- Whether two programs hold the same instructions and functions, and both are linked or neither.
Where they were compiled from does not matter. -/
def sameCode (p q : Program) : Bool :=
  p.linked == q.linked && p.functions == q.functions && p.instructions == q.instructions

end Program
end Bareword
