import Bareword.Program.Instruction

/-! # Expressions

What a tree means once punctuation, grouping and the forms of literals are gone. Every expression
keeps the span that its instructions are reported at.

* `Expr`: an expression.
* `Call`: a callee with its arguments; a stage of a pipe is one too.
* `Arg`: an argument, which in a stage may be the value that comes through the pipe.
-/

namespace Bareword
set_option autoImplicit false

mutual

inductive Expr where
  | literal (span : Span) (value : Literal)
  /-- The value of a name, or the name itself when it has none. -/
  | name (span : Span) (name : Text)
  /-- A field of the value of a name. -/
  | field (span : Span) (base field : Text)
  /-- A name by itself, which is called if it is a function. -/
  | bare (span : Span) (name : Text)
  /-- The texts of the parts, joined. -/
  | concat (span : Span) (parts : List Expr)
  /-- An operation on the values of two expressions. -/
  | binary (span : Span) (op : Opcode) (left right : Expr)
  /-- The left value if it counts as `stopOn`, and the right one otherwise. -/
  | shortCircuit (span : Span) (stopOn : Bool) (left right : Expr)
  | assign (span : Span) (name : Text) (value : Expr)
  /-- A value that goes through some calls, one after the other. -/
  | pipe (span : Span) (first : Expr) (stages : List Call)
  | function (span : Span) (params : List Text) (body : List Expr)
  | call (call : Call)
  /-- The first branch whose condition counts as true, or else the last expression. -/
  | choose (span : Span) (branches : List Branch) (otherwise : Expr)
  /-- Statements, whose value is that of the last one. -/
  | block (span : Span) (statements : List Expr)

inductive Call where
  | mk (span : Span) (callee : Text) (positional : List Arg) (named : List NamedArg)

inductive Arg where
  | value (e : Expr)
  /-- The value that comes through the pipe. -/
  | piped (span : Span)

inductive NamedArg where
  | mk (name : Text) (arg : Arg)

inductive Branch where
  | mk (condition block : Expr)

end

namespace Arg

/-- Whether the argument is the value that comes through the pipe. -/
def isPiped : Arg → Bool
  | .piped _ => true
  | .value _ => false

end Arg

namespace NamedArg

/-- The argument without its name. -/
def arg : NamedArg → Arg
  | .mk _ a => a

end NamedArg

namespace Call

def span : Call → Span
  | .mk s _ _ _ => s

/-- Whether an argument is the value that comes through the pipe. -/
def takesPiped : Call → Bool
  | .mk _ _ positional named =>
    positional.any (·.isPiped) || named.any fun n => n.arg.isPiped

end Call
end Bareword
