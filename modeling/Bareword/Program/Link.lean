import Bareword.Program.Basic
import Bareword.Report.Fault
import Bareword.Text.Quoted

/-! # Linking

Linking drops the labels of a program and turns every target into an instruction index.

* `Program.labels`: where the labels of a program lead to.
* `Program.link`: the linked program, or the first fault.
-/

namespace Bareword.Program
set_option autoImplicit false

inductive LinkFault where
  | duplicateLabel (name : Text)
  | unresolvedLabel (name : Text)
  | outOfRange (target : Int64)
  deriving DecidableEq

def LinkFault.message : LinkFault → Text
  | .duplicateLabel name => "duplicate label " ++ Text.quoted name
  | .unresolvedLabel name => "unresolved label " ++ Text.quoted name
  | .outOfRange target => "jump target #" ++ Text.decimal target.toInt ++ " out of range"

/-- The labels among some instructions with the indices of the instructions that follow them, or the
instruction whose label was there before. `n` instructions come before, and `known` are the labels
among them. -/
def labels (known : List (Text × Nat)) (n : Nat) :
    List Instruction → Except (Instruction × LinkFault) (List (Text × Nat))
  | [] => .ok known
  | i :: rest =>
    if i.isLabel then
      if (known.lookup i.name).isSome then .error (i, .duplicateLabel i.name)
      else labels ((i.name, n) :: known) n rest
    else labels known (n + 1) rest

/-- The instruction at index `n` of a linked program that has `size` instructions. -/
def resolve (table : List (Text × Nat)) (size n : Nat) (i : Instruction) :
    Except LinkFault Instruction :=
  match i.mode with
  | .none => .ok i
  | .label =>
    match table.lookup i.label with
    | none => .error (.unresolvedLabel i.label)
    | some t => .ok { i with mode := .absolute, target := Int64.ofNat t }
  | .relative =>
    let target := Int64.ofNat (n + 1) + i.target
    if i.target < 0 ∨ Int64.ofNat size < target then .error (.outOfRange i.target)
    else .ok { i with mode := .absolute, target }
  | .absolute | .other _ => .ok { i with mode := .absolute }

/-- The linked form of some instructions, the first of which gets the index `n`. -/
def resolveAll (table : List (Text × Nat)) (size : Nat) (n : Nat) :
    List Instruction → Except (Instruction × LinkFault) (List Instruction)
  | [] => .ok []
  | i :: rest =>
    if i.isLabel then resolveAll table size n rest
    else
      match resolve table size n i with
      | .error e => .error (i, e)
      | .ok i' =>
        match resolveAll table size (n + 1) rest with
        | .error e => .error e
        | .ok rest' => .ok (i' :: rest')

/-- The report of a fault at an instruction. -/
def linkFault (p : Program) (i : Instruction) (e : LinkFault) : Report.CompileFault :=
  { location := ⟨p.filename, p.source, i.span⟩, code := Report.Code.badLabel.text,
    message := e.message }

/-- The linked program. A linked program is left as it is. -/
def link (p : Program) : Except Report.CompileFault Program :=
  if p.linked then .ok p
  else
    match labels [] 0 p.instructions with
    | .error (i, e) => .error (p.linkFault i e)
    | .ok table =>
      match resolveAll table (Instruction.size p.instructions) 0 p.instructions with
      | .error (i, e) => .error (p.linkFault i e)
      | .ok instructions => .ok { p with instructions, linked := true }

end Bareword.Program
