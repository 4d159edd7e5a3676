import Bareword.Expr.Basic
import Bareword.Program.Basic

/-! # Compiling expressions

The instructions of an expression leave its value on the stack. The bodies of functions stand apart
from the code that makes the functions, each under a label; labels and temporary variables are
numbered in the order in which their expressions are met.

* `Gen`: code that is still to be numbered; two of them are put one after the other with `++`.
* `Expr.gen`: the code of an expression.
* `Expr.compile`: the program of some statements.
-/

namespace Bareword
set_option autoImplicit false

/-! ## Numbered code -/

/-- How many functions, conditionals and pipes were numbered. -/
structure Counters where
  functions : Nat := 0
  conditionals : Nat := 0
  pipes : Nat := 0
  deriving DecidableEq, Repr

/-- The body of a function under its label. -/
structure Body where
  label : Text
  code : List Instruction

/-- Numbered code: instructions, the bodies of the functions in them, and the numbers used. -/
structure Emitted where
  code : List Instruction
  bodies : List Body
  next : Counters

/-- Code that is still to be numbered. -/
def Gen := Counters → Emitted

namespace Gen

def instr (i : Instruction) : Gen := fun c => ⟨[i], [], c⟩

def nil : Gen := fun c => ⟨[], [], c⟩

def append (g h : Gen) : Gen := fun c =>
  let a := g c
  let b := h a.next
  ⟨a.code ++ b.code, a.bodies ++ b.bodies, b.next⟩

instance : Append Gen := ⟨append⟩

/-- A jump over all of some code, then that code. -/
def jumpOver (op : Opcode) (span : Span) (g : Gen) : Gen := fun c =>
  let a := g c
  let jump : Instruction :=
    { op, mode := .relative, target := Int64.ofNat (Instruction.size a.code), span }
  { a with code := jump :: a.code }

/-- The label where the branches of a conditional meet. -/
def endLabel (n : Nat) : Text := ".end_" ++ Text.ofNat n

/-- The label of a function body. -/
def functionLabel (n : Nat) : Text := ".func_" ++ Text.ofNat n

/-- The temporary variable of a pipe. -/
def temporary (n : Nat) : Text := Program.temporaryStem ++ Text.ofNat n

/-- Code that uses the label of a new conditional. -/
def withEnd (g : Text → Gen) : Gen := fun c =>
  let n := c.conditionals + 1
  g (endLabel n) { c with conditionals := n }

/-- Code that uses the temporary variable of a new pipe. -/
def withTemporary (g : Text → Gen) : Gen := fun c =>
  let n := c.pipes + 1
  g (temporary n) { c with pipes := n }

/-- The making of a function, whose body stands apart. -/
def function (span : Span) (params : List Text) (body : Gen) : Gen := fun c =>
  let label := functionLabel c.functions
  let a := body { c with functions := c.functions + 1 }
  ⟨[{ op := .makeFunction, params, label, mode := .label, span }],
    ⟨label, a.code ++ [{ op := .return, span }]⟩ :: a.bodies, a.next⟩

def push (span : Span) (value : Literal) : Gen := instr { op := .push, value, span }

def load (span : Span) (name : Text) : Gen := instr { op := .tryLoad, name, span }

end Gen

/-! ## Expressions -/

mutual

/-- The code of an expression. -/
def Expr.gen : Expr → Gen
  | .literal span value => .push span value
  | .name span name => .load span name
  | .field span base field => .load span base ++ .instr { op := .dotGet, name := field, span }
  | .bare span name => .instr { op := .tryCall, name, span }
  | .concat span parts =>
    Expr.genParts parts ++
      .instr { op := .strConcat, count := Int64.ofNat parts.length, span }
  | .binary span op left right => left.gen ++ right.gen ++ .instr { op, span }
  | .shortCircuit span stopOn left right =>
    left.gen ++ .instr { op := .dup, span } ++
      .jumpOver (if stopOn then .jumpIfTrue else .jumpIfFalse) span
        (.instr { op := .pop, span } ++ right.gen)
  | .assign span name value => value.gen ++ .instr { op := .store, name, span }
  | .pipe span first stages =>
    first.gen ++ .withTemporary fun temporary => Expr.genStages span temporary stages
  | .function span params body =>
    .function span params
      (match body with
        | [] => .push span .null
        | first :: rest => first.gen ++ Expr.genRest span rest)
  | .call call => call.gen call.span none
  | .choose span branches otherwise =>
    .withEnd fun label =>
      Expr.genBranches span label branches ++ otherwise.gen ++
        .instr { op := .label, name := label, span }
  | .block span statements =>
    match statements with
    | [] => .push span .null
    | first :: rest => first.gen ++ Expr.genRest span rest

/-- The code of expressions whose values are all kept. -/
def Expr.genParts : List Expr → Gen
  | [] => .nil
  | e :: es => e.gen ++ Expr.genParts es

/-- The code of statements after another one, whose value is dropped. -/
def Expr.genRest (span : Span) : List Expr → Gen
  | [] => .nil
  | e :: es => .instr { op := .pop, span } ++ e.gen ++ Expr.genRest span es

/-- The code of the stages of a pipe. The value so far goes into the temporary variable. -/
def Expr.genStages (span : Span) (temporary : Text) : List Call → Gen
  | [] => .nil
  | stage :: stages =>
    .instr { op := .store, name := temporary, span } ++ .instr { op := .pop, span } ++
      stage.gen span (some temporary) ++ Expr.genStages span temporary stages

/-- The code of the branches of a conditional. Every branch goes on to the label. -/
def Expr.genBranches (span : Span) (label : Text) : List Branch → Gen
  | [] => .nil
  | .mk condition block :: branches =>
    condition.gen ++
      .jumpOver .jumpIfFalse span
        (block.gen ++ .instr { op := .jump, mode := .label, label, span }) ++
      Expr.genBranches span label branches

/-- The code of a call. A value that comes through a pipe is in a temporary variable; it is the
first argument unless some argument takes it. -/
def Call.gen (around : Span) (piped : Option Text) : Call → Gen
  | .mk span callee positional named =>
    let implicit := piped.isSome && !(Call.mk span callee positional named).takesPiped
    .load span callee ++
      (if implicit then .load around (piped.getD []) else .nil) ++
      Arg.genAll (piped.getD []) positional ++
      NamedArg.genAll around (piped.getD []) named ++
      .push span (.ofNat (positional.length + if implicit then 1 else 0)) ++
      .push span (.ofNat named.length) ++
      .instr { op := .call, span }

def Arg.gen (temporary : Text) : Arg → Gen
  | .value e => e.gen
  | .piped span => .load span temporary

def Arg.genAll (temporary : Text) : List Arg → Gen
  | [] => .nil
  | a :: as => a.gen temporary ++ Arg.genAll temporary as

/-- The code of arguments with names, each name before its argument. -/
def NamedArg.genAll (around : Span) (temporary : Text) : List NamedArg → Gen
  | [] => .nil
  | .mk name arg :: rest =>
    .push around (.ofText name) ++ arg.gen temporary ++ NamedArg.genAll around temporary rest

end

namespace Expr

section

variable (span : Span) (name : Text) (e : Expr)

theorem gen_literal (value : Literal) : (literal span value).gen = .push span value := rfl

theorem gen_name : (Expr.name span name).gen = .load span name := rfl

theorem gen_field (base field : Text) :
    (Expr.field span base field).gen =
      .load span base ++ .instr { op := .dotGet, name := field, span } := rfl

theorem gen_bare : (bare span name).gen = .instr { op := .tryCall, name, span } := rfl

theorem gen_concat (parts : List Expr) :
    (concat span parts).gen =
      genParts parts ++ .instr { op := .strConcat, count := Int64.ofNat parts.length, span } := rfl

theorem gen_binary (op : Opcode) (right : Expr) :
    (binary span op e right).gen = e.gen ++ right.gen ++ .instr { op, span } := rfl

theorem gen_shortCircuit (stopOn : Bool) (right : Expr) :
    (shortCircuit span stopOn e right).gen =
      e.gen ++ .instr { op := .dup, span } ++
        .jumpOver (if stopOn then .jumpIfTrue else .jumpIfFalse) span
          (.instr { op := .pop, span } ++ right.gen) := rfl

theorem gen_assign :
    (assign span name e).gen = e.gen ++ .instr { op := .store, name, span } := rfl

theorem gen_pipe (stages : List Call) :
    (pipe span e stages).gen =
      e.gen ++ .withTemporary fun temporary => genStages span temporary stages := rfl

theorem gen_call (c : Call) : (call c).gen = c.gen c.span none := rfl

theorem gen_choose (branches : List Branch) :
    (choose span branches e).gen =
      .withEnd fun label =>
        genBranches span label branches ++ e.gen ++
          .instr { op := .label, name := label, span } := rfl

end

/-- The code of statements. -/
def genStatements (span : Span) : List Expr → Gen
  | [] => .push span .null
  | first :: rest => first.gen ++ genRest span rest

/-- A body with its label in front. -/
def placed (b : Body) : List Instruction := { op := .label, name := b.label } :: b.code

def compile (source filename : Text) (statements : List Expr) : Program :=
  let e := (genStatements .zero statements ++ Gen.instr { op := .halt }) {}
  { instructions := e.code ++ e.bodies.flatMap placed
    functions := e.bodies.map (·.label)
    source, filename }

end Expr
end Bareword
