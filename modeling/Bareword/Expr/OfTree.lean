import Bareword.Decimal.Read
import Bareword.Expr.Basic
import Bareword.Pattern.Check
import Bareword.Report.Fault
import Bareword.Text.Case
import Bareword.Token.Scan
import Bareword.Tree.Basic

/-! # Expressions of trees

Every node of a tree stands for an expression, if it has the shape that its kind asks for. The parts
of a node are looked at in the order in which they are evaluated, and the first obstacle counts.

* `OfTree.Obstacle`: why a tree stands for no expressions.
* `Expr.ofNode`: the expression of a node.
* `Expr.ofProgram`: the statements of a whole tree.
-/

namespace Bareword.OfTree
set_option autoImplicit false
open Bareword.Tree (Node)
open Report (Code)

/-- Why a tree stands for no expressions. -/
inductive Obstacle where
  /-- A fault to report, which may have another one beneath it. -/
  | fault (code : Code) (span : Span) (message : Text) (hasCause : Bool)
  /-- A stage of a pipe that claims to be a call and has nothing in it. There is no report of it. -/
  | emptyStage
  deriving DecidableEq

/-- An expression or what stands in its way. -/
abbrev Result (α : Type) := Except Obstacle α

/-- The obstacle of a node that does not have the shape of its kind. -/
def misshapen {α : Type} (n : Node) (message : Text) : Result α :=
  .error (.fault .unknownNode n.span message false)

/-! ## Literals -/

/-- A number. One that is too large is no number. -/
def number (n : Node) : Result Expr :=
  match Decimal.read n.text with
  | .exact x => .ok (.literal n.span (.ofNumber x))
  | .overflow _ | .malformed => .error (.fault .badNumber n.span ("invalid number " ++ Text.quoted n.text) true)

/-- The flags that regular expressions may have; some of them change how one matches. -/
def regexFlags : Text := "imsguy"

/-- The flags among the given ones that change how a regular expression matches, each once; or the
first flag that is none. -/
def regexInline : Text → List Rune → Except Nat Text
  | inline, [] => .ok inline
  | inline, r :: rest =>
    if 128 ≤ r.code ∨ ¬ regexFlags.contains r.code.toUInt8 then .error r.code
    else
      let f := r.code.toUInt8
      regexInline (if Pattern.matchingFlags.contains f ∧ ¬ inline.contains f then inline ++ [f]
        else inline) rest

/-- A regular expression between double slashes, with flags after them. -/
def regex (n : Node) : Result Expr :=
  let body := Text.dropLead "//" n.text
  match Text.findLast? "//" body with
  | none => misshapen n ("malformed regex literal " ++ Text.quoted n.text)
  | some i =>
    let pattern := body.take i
    let flags := body.drop (i + 2)
    match regexInline [] (Text.runes flags) with
    | .error f => .error (.fault .badRegex n.span ("unknown regex flag " ++ Text.quotedRune f) false)
    | .ok inline =>
      match Pattern.check (Pattern.withFlags inline pattern) with
      | .error e =>
        .error (.fault .badRegex n.span ("invalid regex " ++ n.text ++ ": " ++ e.message) true)
      | .ok () => .ok (.literal n.span (.ofRegex pattern flags))

/-- Whether a node is a piece of text that stands for itself. -/
def isFragment (n : Node) : Bool := n.kind == .stringFragment || n.kind == .wordFragment

/-- A part of a string or a word; `sub` reads the expressions in it. -/
def fragment (sub : Node → Result Expr) (whole part : Node) : Result Expr :=
  match part.kind with
  | .stringFragment | .wordFragment => .ok (.literal whole.span (.ofText part.text))
  | .escape => .ok (.literal whole.span (.ofText (Token.unescape part.text)))
  | .interpolation =>
    match part.children with
    | [inner] => sub inner
    | _ => misshapen part "interpolation must hold exactly one expression"
  | kind => misshapen part ("unexpected " ++ kind.text ++ " in " ++ whole.kind.text)

def fragments (sub : Node → Result Expr) (n : Node) : Result Expr :=
  if n.children.all isFragment then
    .ok (.literal n.span (.ofText (n.children.flatMap (·.text))))
  else do
    let parts ← n.children.mapM (fragment sub n)
    return .concat n.span parts

/-! ## Operators -/

def arithmetic? (operator : Text) : Option Opcode :=
  if operator = "+" then some .add
  else if operator = "-" then some .sub
  else if operator = "*" then some .mul
  else if operator = "/" then some .div
  else none

def comparison? (operator : Text) : Option Opcode :=
  if operator = "=" then some .eq
  else if operator = "!=" then some .neq
  else if operator = "<" then some .lt
  else if operator = ">" then some .gt
  else if operator = "<=" then some .lte
  else if operator = ">=" then some .gte
  else none

/-- The operands of a node with an operator between them. -/
def operands (n : Node) : Result (Node × Node × Node) :=
  match n.children with
  | [left, operator, right] =>
    if operator.kind = .operator then .ok (left, operator, right)
    else misshapen n ("malformed " ++ n.kind.text)
  | _ => misshapen n ("malformed " ++ n.kind.text)

def binOp (sub : Node → Result Expr) (n : Node) : Result Expr := do
  let (left, operator, right) ← operands n
  match arithmetic? operator.text with
  | none => misshapen operator ("unsupported binary operator " ++ Text.quoted operator.text)
  | some op => return .binary n.span op (← sub left) (← sub right)

def conditionalOp (sub : Node → Result Expr) (n : Node) : Result Expr := do
  let (left, operator, right) ← operands n
  if operator.text = "and" then return .shortCircuit n.span false (← sub left) (← sub right)
  else if operator.text = "or" then return .shortCircuit n.span true (← sub left) (← sub right)
  else
    match comparison? operator.text with
    | none => misshapen operator ("unsupported conditional operator " ++ Text.quoted operator.text)
    | some op => return .binary n.span op (← sub left) (← sub right)

/-! ## Names -/

def dotGet (n : Node) : Result Expr :=
  match n.child? 0, n.child? 1 with
  | some base, some field =>
    if base.kind = .identifier ∧ field.kind = .identifier then
      .ok (.field n.span base.text field.text)
    else misshapen n "property access needs a name and a field"
  | _, _ => misshapen n "property access needs a name and a field"

def assignment (sub : Node → Result Expr) (n : Node) : Result Expr :=
  match n.first? .assignable, n.child? 2 with
  | some name, some value => do return .assign n.span name.text (← sub value)
  | _, _ => misshapen n "assignment needs a name and a value"

def paren (sub : Node → Result Expr) (n : Node) : Result Expr :=
  match n.children with
  | [] => .ok (.literal n.span .null)
  | [inner] => sub inner
  | _ => misshapen n "parentheses hold more than one expression"

/-! ## Conditionals -/

def branch (sub : Node → Result Expr) (condition block : Node) : Result Branch := do
  return .mk (← sub condition) (← sub block)

/-- The further parts of a conditional: the branches, and the block of the last alternative without
a condition. -/
def branches (sub : Node → Result Expr) :
    List Node → Option Node → Result (List Branch × Option Node)
  | [], otherwise => .ok ([], otherwise)
  | part :: rest, otherwise =>
    match part.kind with
    | .elsifExpr =>
      match part.significant with
      | [condition, block] => do
        let b ← branch sub condition block
        let (bs, otherwise) ← branches sub rest otherwise
        return (b :: bs, otherwise)
      | _ => misshapen part "elsif needs a condition and a block"
    | .elseExpr => branches sub rest (part.first? .thenBlock)
    | kind => misshapen part ("unexpected " ++ kind.text ++ " in if")

def conditional (sub : Node → Result Expr) (n : Node) : Result Expr :=
  match n.significant with
  | condition :: block :: rest =>
    if block.kind = .thenBlock then do
      let b ← branch sub condition block
      let (bs, otherwise) ← branches sub rest none
      match otherwise with
      | none => return .choose n.span (b :: bs) (.literal n.span .null)
      | some block => return .choose n.span (b :: bs) (← sub block)
    else misshapen n "if needs a condition and a block"
  | _ => misshapen n "if needs a condition and a block"

/-! ## Functions and calls -/

def param (p : Node) : Result Text :=
  if p.kind = .identifier then .ok p.text
  else misshapen p ("unexpected " ++ p.kind.text ++ " in parameter list")

def functionOf (sub : Node → Result Expr) (n : Node) : Result Expr :=
  match n.significant with
  | params :: body =>
    if params.kind = .params then do
      let names ← params.children.mapM param
      return .function n.span names (← body.mapM sub)
    else misshapen n "function literal without parameter list"
  | [] => misshapen n "function literal without parameter list"

/-- The name that a call calls. -/
def callee (n : Node) : Result Text :=
  match n.child? 0 with
  | some name =>
    if name.kind = .identifier then .ok name.text
    else misshapen n (n.kind.text ++ " without a callee")
  | none => misshapen n (n.kind.text ++ " without a callee")

/-- The word that stands for the value that comes through a pipe. -/
def placeholder : Text := "_"

def isPlaceholder (n : Node) : Bool :=
  n.kind == .word &&
    match n.children with
    | [part] => part.kind == .wordFragment && part.text == placeholder
    | _ => false

def argValue? (arg : Node) : Option Node :=
  if arg.kind = .namedArg then arg.child? 1 else arg.child? 0

/-- An argument. `around` is the node that a missing value is reported at, and `isStage` says
whether a value comes through a pipe. -/
def argument (sub : Node → Result Expr) (around : Node) (isStage : Bool) (arg : Node) :
    Result Arg :=
  match argValue? arg with
  | none => misshapen around "argument without a value"
  | some value =>
    if isStage && isPlaceholder value then .ok (.piped value.span)
    else do return .value (← sub value)

def namedArgument (sub : Node → Result Expr) (around : Node) (isStage : Bool) (arg : Node) :
    Result NamedArg :=
  match arg.first? .argName with
  | none => misshapen arg "named argument without a name"
  | some name => do return .mk (Text.dropTail "=" name.text) (← argument sub around isStage arg)

/-- The call of `name` with arguments. -/
def arguments (sub : Node → Result Expr) (around : Node) (isStage : Bool) (call : Node) (name : Text)
    (args : List Node) : Result Call :=
  match args.find? fun a => a.kind != .positionalArg && a.kind != .namedArg with
  | some other => misshapen other ("unexpected " ++ other.kind.text ++ " in call")
  | none => do
    let positional ←
      (args.filter (·.kind == .positionalArg)).mapM (argument sub around isStage)
    let named ← (args.filter (·.kind == .namedArg)).mapM (namedArgument sub around isStage)
    return .mk call.span name positional named

def callOf (sub : Node → Result Expr) (n : Node) : Result Expr := do
  let name ← callee n
  return .call (← arguments sub n false n name (n.children.drop 1))

/-- What a stage is that is no call. -/
def describe (n : Node) : Text :=
  match n.kind with
  | .number => "a number"
  | .boolean => "a boolean"
  | .regex => "a regex"
  | .string => "a string"
  | .word => "a word"
  | .identifier => "a name"
  | .dotGet => "a property access"
  | .binOp => "an arithmetic expression"
  | .parenExpr => "a parenthesized expression"
  | .functionDef => "a function literal"
  | .ifExpr => "an if expression"
  | kind => Text.lower kind.text

def stage (sub : Node → Result Expr) (pipe n : Node) : Result Call :=
  match n.kind with
  | .functionCall =>
    if n.children.isEmpty then .error .emptyStage
    else do
      let name ← callee n
      arguments sub pipe true n name (n.children.drop 1)
  | .callOrIdentifier => do
    let name ← callee n
    arguments sub pipe true n name []
  | _ =>
    .error (.fault .badPipe n.span
      ("cannot pipe into " ++ describe n ++ ", expected a function call") false)

def pipeline (sub : Node → Result Expr) (n : Node) : Result Expr :=
  match n.children.filter (·.kind != .operator) with
  | first :: second :: rest => do
    let value ← sub first
    let stages ← (second :: rest).mapM (stage sub n)
    return .pipe n.span value stages
  | _ => misshapen n "pipe with fewer than two stages"

/-! ## Nodes -/

/-- The expression of a node whose parts are read by `sub`. -/
def ofParts (sub : Node → Result Expr) (n : Node) : Result Expr :=
  match n.kind with
  | .number => number n
  | .boolean => .ok (.literal n.span (.ofBool (n.text == Text.ofString "true")))
  | .regex => regex n
  | .string | .word => fragments sub n
  | .identifier => .ok (.name n.span n.text)
  | .dotGet => dotGet n
  | .binOp => binOp sub n
  | .conditionalOp => conditionalOp sub n
  | .assign => assignment sub n
  | .parenExpr => paren sub n
  | .pipeExpr => pipeline sub n
  | .functionDef => functionOf sub n
  | .functionCall => callOf sub n
  | .callOrIdentifier => do return .bare n.span (← callee n)
  | .ifExpr => conditional sub n
  | .thenBlock => do return .block n.span (← n.children.mapM sub)
  | kind => misshapen n ("unrecognized syntax node " ++ kind.text)

/-- The expression of a node that is at most as high as the fuel. -/
def ofNodeWithin : Nat → Node → Result Expr
  | 0, n => misshapen n []
  | fuel + 1, n => ofParts (ofNodeWithin fuel) n

end Bareword.OfTree

namespace Bareword.Expr
set_option autoImplicit false
open Bareword.Tree (Node)

def ofNode (n : Node) : OfTree.Result Expr := OfTree.ofNodeWithin n.height n

def ofProgram (n : Node) : OfTree.Result (List Expr) := n.children.mapM ofNode

end Bareword.Expr
