import Bareword.Program.Link
import Bareword.Report.Paint
import Bareword.Table

/-! # Disassembly

A linked program as a table: for every instruction its index, its operation, its operand, what the
operand means and where in the source the instruction comes from.

* `Program.disassemble`: the entries of a program, which is linked first.
* `Disassembly.table`, `Disassembly.render`: the entries as a table and as text.
-/

namespace Bareword
set_option autoImplicit false

structure Disassembly where
  offset : Nat
  op : Opcode
  operand : Text := []
  annotation : Text := []
  /-- The line and the column in the source, when there is one. -/
  position : Text := []
  constant : Option Literal := none

namespace Disassembly

/-- Takes the instruction at an index apart. -/
def ofInstruction (source : Text) (offset : Nat) (i : Instruction) : Disassembly :=
  let position := if source.isEmpty then [] else (Position.ofOffset source i.span.start).render
  let entry : Disassembly := { offset, op := i.op, position }
  let target := Text.decimal i.target.toInt
  match i.op.operand with
  | .none => entry
  | .value => { entry with constant := some i.value, annotation := i.value.listing }
  | .name => { entry with operand := i.name }
  | .target => { entry with operand := target }
  | .function =>
    { entry with
      operand := target
      annotation := i.label ++ " (" ++ Text.join " " i.params ++ ")" }
  | .count => { entry with operand := Text.decimal i.count.toInt }

/-- The entries of some instructions, the first of which has the index `n`. -/
def ofInstructions (source : Text) : Nat → List Instruction → List Disassembly
  | _, [] => []
  | n, i :: rest => ofInstruction source n i :: ofInstructions source (n + 1) rest

/-- The number of bytes of a string from which on its end is left out. -/
def longestString : Nat := 80

/-- A constant as the table shows it. -/
def renderConstant (color : Bool) (l : Literal) : Text :=
  match l.kind with
  | .number => Report.paint color [.yellow] l.listing
  | .string =>
    let shown := if longestString < l.text.length then l.text.take (longestString - 3) ++ "..."
      else l.text
    Report.paint color [.green] (Text.quoted shown)
  | .regex => Report.paint color [.magenta] l.listing
  | _ => Report.paint color [.bold] l.listing

/-- What the table says about the operand. -/
def info (color : Bool) (d : Disassembly) : Text :=
  match d.constant with
  | some l => renderConstant color l
  | none =>
    if d.op = .makeFunction then Report.paint color [.magenta] d.annotation
    else if d.annotation.isEmpty then []
    else Report.paint color [.brightCyan] d.annotation

def row (color withPosition : Bool) (d : Disassembly) : List Text :=
  [Text.ofNat d.offset, Report.paint color [.bold] (d.op.mnemonic?.getD ""), d.operand,
    d.info color] ++
    if withPosition then [Report.paint color [.faint] d.position] else []

/-- The table of some entries. Positions have a column when one is known. -/
def table (color : Bool) (ds : List Disassembly) : Table :=
  let withPosition := ds.any fun d => !d.position.isEmpty
  let header : List Text := ["OFFSET", "OPCODE", "OPERAND", "INFO"]
  let header := if withPosition then header ++ [("LINE" : Text)] else header
  { header
    rows := ds.map (row color withPosition)
    headerAlignment := header.map fun _ => .center
    columnAlignment := [.right, .left, .right, .left] ++ if withPosition then [.left] else [] }

def render (color : Bool) (ds : List Disassembly) : Text := (table color ds).render

end Disassembly

/-- The entries of a program, which is linked first. -/
def Program.disassemble (p : Program) : Except Report.CompileFault (List Disassembly) :=
  match p.link with
  | .error e => .error e
  | .ok q => .ok (Disassembly.ofInstructions q.source 0 q.instructions)

end Bareword
