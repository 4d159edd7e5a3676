import Bareword.Proofs.Machine.Instructions
import Bareword.Expr.OfTree

/-! # Evaluating trees

What a tree means, without instructions: the value of a node is computed from the values of its
parts, in environments that are shared by reference.

Two things are bounded. Evaluation holds the values that it still needs, such as the left operand
while the right one is computed, and at most `capacity` of them; and calls of functions nest at most
as deeply as the evaluator allows. Functions are told apart by the number under which they were
made, and their bodies are kept as trees.

* `Eval`: a computation on environments, functions made so far, and text written so far.
* `evalParts`: the value of a node from those of its parts.
* `Enter`, `enterWithin`: what a call of a function does.
* `evaluate`: the value of a whole tree.
-/

namespace Bareword.Evaluation
set_option autoImplicit false
open Bareword.Tree (Node)
open Machine (Trouble Exec)
open OfTree (isFragment isPlaceholder argValue?)

/-! ## Computations -/

/-- A function that was made: its parameters, where it stands, and the statements of its body. -/
structure Lambda where
  params : List Text
  span : Span
  body : List Node

/-- The environments, the functions made so far, and the text written so far. -/
structure State where
  store : Store
  functions : List Lambda := []
  output : Text := []

/-- A computation, which may stop in trouble. -/
abbrev Eval := EStateM Trouble State

/-- What a tree is evaluated with. -/
structure Setting where
  host : Host
  source : Text
  filename : Text
  /-- How many values can be held at once. -/
  capacity : Nat

/-- The environment of a node and the number of values that are held around it. -/
structure Place where
  env : Nat
  held : Nat
  deriving DecidableEq

def Place.more (pl : Place) (n : Nat) : Place := { pl with held := pl.held + n }

/-- The trouble with the place where it arose, unless it has one or no source is known. -/
def Setting.located (w : Setting) (span : Span) : Trouble → Trouble
  | .fault e =>
    .fault (if e.isLocated ∨ w.source.isEmpty then e
      else { e with location := ⟨w.filename, w.source, span⟩ })
  | other => other

def stop {α : Type} (w : Setting) (span : Span) (e : Trouble) : Eval α := throw (w.located span e)

/-- Keeps a value, if there is room for it. -/
def hold (w : Setting) (span : Span) (pl : Place) (v : Value) : Eval Value :=
  if pl.held < w.capacity then return v else stop w span Machine.overflow

/-- Computes something from values alone. -/
def compute {α : Type} (w : Setting) (span : Span) (x : Exec α) : Eval α :=
  match Machine.outcome x with
  | .ok a => return a
  | .error e => stop w span e

/-- The value of a name, or the name itself. -/
def lookup (pl : Place) (name : Text) : Eval Value := do
  return ((← get).store.get? pl.env name).getD (.text name)

/-- One thing after the other, each with the values of those before it held. -/
def evalAll {α : Type} (f : Place → α → Eval Value) (pl : Place) : List α → Eval (List Value)
  | [] => return []
  | a :: as => do
    let v ← f pl a
    let vs ← evalAll f (pl.more 1) as
    return v :: vs

/-! ## Calls -/

/-- What a call of a function does that stands at a span. -/
abbrev Enter := Span → Place → Closure → Args → Eval Value

/-- The result of a builtin, whose text is written. -/
def native (w : Setting) (span : Span) (b : Builtin) (args : Args) : Eval Value :=
  match b.call w.host args with
  | .ok (v, written) => do
    modify fun s => { s with output := s.output ++ written }
    return v
  | .error r => stop w span (Machine.Refusal.trouble r)

def apply (w : Setting) (enter : Enter) (span : Span) (pl : Place) (callee : Value) (args : Args) :
    Eval Value :=
  match callee with
  | .closure c => enter span pl c args
  | .builtin b => do hold w span pl (← native w span b args)
  | .text t => do stop w span (Machine.notAFunction t ((← get).store.names pl.env))
  | v => stop w span (.fault (.of .notCallable (v.typeName ++ " is not callable")))

section Nodes
variable (w : Setting) (enter : Enter) (sub : Place → Node → Eval Value)

/-- The value of an argument. In a stage of a pipe the placeholder stands for the value that comes
through the pipe. -/
def evalArg (piped : Option Value) (pl : Place) (arg : Node) : Eval Value :=
  match argValue? arg, piped with
  | none, _ => throw .breakdown
  | some value, some v => if isPlaceholder value then hold w value.span pl v else sub pl value
  | some value, none => sub pl value

/-- The names and the values of arguments with names. A name is held with its value. -/
def evalNamed (around : Span) (piped : Option Value) (pl : Place) :
    List Node → Eval (List (Text × Value))
  | [] => return []
  | arg :: args =>
    match arg.first? .argName with
    | none => throw .breakdown
    | some label => do
      let name := Text.dropTail "=" label.text
      let _ ← hold w around pl (.text name)
      let v ← evalArg w sub piped (pl.more 1) arg
      let rest ← evalNamed around piped (pl.more 2) args
      return (name, v) :: rest

/-- Whether some argument is the placeholder. -/
def takesPlaceholder (args : List Node) : Bool :=
  args.any fun arg => (argValue? arg).any isPlaceholder

/-- A call of a name: the callee, the positional arguments, those with names, and then the call
itself. A value that comes through a pipe is the first argument unless some argument takes it. -/
def evalCall (around span : Span) (piped : Option Value) (pl : Place) (name : Text)
    (args : List Node) : Eval Value := do
  let callee ← hold w span pl (← lookup pl name)
  let front := if takesPlaceholder args then [] else piped.toList
  let first ← evalAll (fun pl v => hold w around pl v) (pl.more 1) front
  let rest ← evalAll (evalArg w sub piped) (pl.more (1 + first.length))
    (args.filter (·.kind == .positionalArg))
  let positional := first ++ rest
  let named ← evalNamed w sub around piped (pl.more (1 + positional.length))
    (args.filter (·.kind == .namedArg))
  let held := 1 + positional.length + 2 * named.length
  -- The two numbers of arguments are held with them.
  let _ ← hold w span (pl.more held) .null
  let _ ← hold w span (pl.more (held + 1)) .null
  apply w enter span pl callee ⟨positional, Machine.namedArgs named⟩

/-- A name by itself is called if it is a function. -/
def evalBare (span : Span) (pl : Place) (name : Text) : Eval Value := do
  let v ← lookup pl name
  if Machine.Value.isCallable v then apply w enter span pl v {} else hold w span pl v

/-- A stage of a pipe, into which a value comes. -/
def evalStage (around : Span) (pl : Place) (v : Value) (stage : Node) : Eval Value :=
  match stage.child? 0 with
  | none => throw .breakdown
  | some name =>
    evalCall w enter sub around stage.span (some v) pl name.text
      (if stage.kind = .functionCall then stage.children.drop 1 else [])

/-- The stages of a pipe, one after the other. -/
def evalStages (around : Span) (pl : Place) : Value → List Node → Eval Value
  | v, [] => return v
  | v, stage :: stages => do
    let v ← evalStage w enter sub around pl v stage
    evalStages around pl v stages

/-! ## Parts of nodes -/

/-- Statements, whose value is that of the last one. -/
def evalBlock (span : Span) (pl : Place) : List Node → Eval Value
  | [] => hold w span pl .null
  | [n] => sub pl n
  | n :: rest => do
    let _ ← sub pl n
    evalBlock span pl rest

/-- A piece of a string or of a word. -/
def evalPiece (whole : Span) (pl : Place) (part : Node) : Eval Value :=
  match part.kind, part.children with
  | .stringFragment, _ | .wordFragment, _ => hold w whole pl (.text part.text)
  | .escape, _ => hold w whole pl (.text (Token.unescape part.text))
  | .interpolation, [inner] => sub pl inner
  | _, _ => throw .breakdown

/-- A string or a word: the texts of its pieces, joined. -/
def evalText (pl : Place) (n : Node) : Eval Value :=
  if n.children.all isFragment then hold w n.span pl (.text (n.children.flatMap (·.text)))
  else do
    let vs ← evalAll (evalPiece w sub n.span) pl n.children
    return .text (Value.joinAll [] vs)

/-- What the operators do with two values. -/
def operator? (t : Text) : Option (Value → Value → Exec Value) :=
  if t = "+" then some (Machine.arithmetic .add)
  else if t = "-" then some (Machine.arithmetic .sub)
  else if t = "*" then some (Machine.arithmetic .mul)
  else if t = "/" then some (Machine.arithmetic .div)
  else if t = "=" then some fun a b => do return .bool (← Machine.equal a b)
  else if t = "!=" then some fun a b => do return .bool (!(← Machine.equal a b))
  else if t = "<" then some (Machine.compare .lt)
  else if t = ">" then some (Machine.compare .gt)
  else if t = "<=" then some (Machine.compare .lte)
  else if t = ">=" then some (Machine.compare .gte)
  else none

/-- The left operand if it counts as `stopOn`, and the right one otherwise. The left one is held
twice while it is looked at. -/
def evalShort (stopOn : Bool) (span : Span) (pl : Place) (left right : Node) : Eval Value := do
  let a ← sub pl left
  let _ ← hold w span (pl.more 1) a
  if a.isTruthy = stopOn then return a else sub pl right

def evalOperator (pl : Place) (n : Node) : Eval Value :=
  match n.children with
  | [left, operator, right] =>
    if operator.text = "and" then evalShort w sub false n.span pl left right
    else if operator.text = "or" then evalShort w sub true n.span pl left right
    else
      match operator? operator.text with
      | none => throw .breakdown
      | some f => do
        let a ← sub pl left
        let b ← sub (pl.more 1) right
        compute w n.span (f a b)
  | _ => throw .breakdown

/-- The further parts of a conditional, when no condition before them held; `otherwise` is the block
of the last alternative without a condition so far. -/
def evalBranches (span : Span) (pl : Place) : Option Node → List Node → Eval Value
  | none, [] => hold w span pl .null
  | some block, [] => sub pl block
  | otherwise, part :: rest =>
    if part.kind = .elsifExpr then
      match part.significant with
      | [condition, block] => do
        if (← sub pl condition).isTruthy then sub pl block
        else evalBranches span pl otherwise rest
      | _ => throw .breakdown
    else evalBranches span pl (part.first? .thenBlock) rest

def evalIf (pl : Place) (n : Node) : Eval Value :=
  match n.significant with
  | condition :: block :: rest => do
    if (← sub pl condition).isTruthy then sub pl block
    else evalBranches w sub n.span pl none rest
  | _ => throw .breakdown

/-- A function, which is made in the environment of the node. -/
def evalFunction (pl : Place) (n : Node) : Eval Value :=
  match n.significant with
  | params :: body => do
    let names := params.children.map (·.text)
    let s ← get
    set { s with functions := s.functions ++ [(⟨names, n.span, body⟩ : Lambda)] }
    hold w n.span pl (.closure ⟨s.functions.length, names, 0, pl.env⟩)
  | [] => throw .breakdown

/-- A regular expression between double slashes, with flags after the last ones. -/
def regexValue (t : Text) : Value :=
  let body := Text.dropLead "//" t
  let length := (Text.findLast? "//" body).getD body.length
  .regex (body.take length) (body.drop (length + 2))

/-- The value of a node; `sub` gives those of its parts. -/
def evalParts (pl : Place) (n : Node) : Eval Value :=
  match n.kind with
  | .number =>
    match Decimal.read n.text with
    | .exact x => hold w n.span pl (.number x)
    | _ => throw .breakdown
  | .boolean => hold w n.span pl (.bool (n.text == Text.ofString "true"))
  | .regex => hold w n.span pl (regexValue n.text)
  | .string | .word => evalText w sub pl n
  | .identifier => do hold w n.span pl (← lookup pl n.text)
  | .dotGet =>
    match n.child? 0, n.child? 1 with
    | some base, some field => do
      let v ← hold w n.span pl (← lookup pl base.text)
      compute w n.span (Machine.fieldOf field.text v)
    | _, _ => throw .breakdown
  | .binOp | .conditionalOp => evalOperator w sub pl n
  | .assign =>
    match n.first? .assignable, n.child? 2 with
    | some name, some value => do
      let v ← sub pl value
      modify fun s => { s with store := s.store.set pl.env name.text v }
      return v
    | _, _ => throw .breakdown
  | .parenExpr =>
    match n.children with
    | [inner] => sub pl inner
    | _ => hold w n.span pl .null
  | .pipeExpr =>
    match n.children.filter (·.kind != .operator) with
    | first :: stages => do
      let v ← sub pl first
      evalStages w enter sub n.span pl v stages
    | [] => throw .breakdown
  | .functionDef => evalFunction w pl n
  | .functionCall =>
    match n.child? 0 with
    | some name => evalCall w enter sub n.span n.span none pl name.text (n.children.drop 1)
    | none => throw .breakdown
  | .callOrIdentifier =>
    match n.child? 0 with
    | some name => evalBare w enter n.span pl name.text
    | none => throw .breakdown
  | .ifExpr => evalIf w sub pl n
  | .thenBlock => evalBlock w sub n.span pl n.children
  | _ => throw .breakdown

end Nodes

/-! ## Trees -/

/-- The value of a node with at most so many levels. -/
def evalWithin (w : Setting) (enter : Enter) : Nat → Place → Node → Eval Value
  | 0, _, _ => throw .breakdown
  | height + 1, pl, n => evalParts w enter (evalWithin w enter height) pl n

def evalNode (w : Setting) (enter : Enter) (pl : Place) (n : Node) : Eval Value :=
  evalWithin w enter n.height pl n

/-- A call of a function when so many more calls can be nested: its body is evaluated in a new
environment, which lies in the one that the function was made in. -/
def enterWithin (w : Setting) : Nat → Enter
  | 0, span, _, _, _ => stop w span Machine.tooDeep
  | calls + 1, span, pl, c, args =>
    match c.bind args with
    | .error e => stop w span (.fault e)
    | .ok vars => do
      let s ← get
      match s.functions[c.id]? with
      | none => throw .breakdown
      | some f =>
        let (env, store) := s.store.add c.env vars
        set { s with store }
        evalBlock w (evalNode w (enterWithin w calls)) f.span ⟨env, pl.held⟩ f.body

/-- The value of a whole tree whose global variables are given, when so many calls can be nested. -/
def evaluate (w : Setting) (calls : Nat) (globals : Closure.Vars) (tree : Node) :
    EStateM.Result Trouble State Value :=
  evalBlock w (evalNode w (enterWithin w calls)) .zero ⟨Store.globals, 0⟩ tree.children
    { store := #[{ vars := globals }] }

end Bareword.Evaluation
