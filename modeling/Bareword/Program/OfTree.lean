import Bareword.Expr.Compile
import Bareword.Expr.OfTree

/-! # Programs of trees

A tree without error nodes is turned into expressions, and these are compiled.

* `Program.ofTree`: the program of a tree.
-/

namespace Bareword.Program
set_option autoImplicit false
open Report (Code SyntaxFault Fault Failure Stop)
open Bareword.Tree (Node)

/-- The report of an error node. -/
def nodeFault (source filename : Text) (n : Node) : Fault :=
  let code := if n.code.isEmpty then Code.unexpectedToken.text else n.code
  .parsing (SyntaxFault.ofSpan filename source n.span code n.message)

/-- The stop that an obstacle leads to. -/
def obstacleStop (source filename : Text) : OfTree.Obstacle → Stop
  | .fault code span message hasCause =>
    .fault (.compiling
      { location := ⟨filename, source, span⟩, code := code.text, message, hasCause })
  | .emptyStage => .breakdown

/-- The program of a tree, whose root has to be that of a program. -/
def ofTree (source filename : Text) (tree : Option Node) : Except Stop Program :=
  let refuse (span : Span) : Except Stop Program :=
    .error (obstacleStop source filename (.fault .unknownNode span "expected a program node" false))
  match tree with
  | none => refuse .zero
  | some n =>
    if n.kind ≠ .program then refuse n.span
    else
      match Failure.ofFaults (n.errors.map (nodeFault source filename)) with
      | some failure => .error (.failed failure)
      | none =>
        match Expr.ofProgram n with
        | .error obstacle => .error (obstacleStop source filename obstacle)
        | .ok statements => .ok (Expr.compile source filename statements)

end Bareword.Program
