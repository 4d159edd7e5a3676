import Bareword.Disk
import Bareword.Registry.Basic
import Bareword.Text.Case
import Bareword.Value.Args

/-! # Builtins

What the builtins do, and which of them a program starts with.

* `Host`: the files and the home directory.
* `Native.run`: the result of a builtin and the text that it writes.
* `Builtin.all`: the builtins that a table of commands makes available.
-/

namespace Bareword
set_option autoImplicit false
open Report (Code RuntimeFault)

/-- What lies outside of a program. -/
structure Host where
  disk : Disk
  home : Text

/-- Why a builtin has no result. -/
inductive Refusal where
  | fault (e : RuntimeFault)
  /-- A fault that is only a message. -/
  | plain (message : Text)
  /-- An argument is no value. -/
  | noValue
  | awaiting (path : Text)
  deriving DecidableEq

/-- A result with the text that is written. -/
abbrev NativeResult := Except Refusal (Value × Text)

namespace Native

/-- The text of a value. -/
def shown : Value → Except Refusal Text
  | .hole => .error .noValue
  | v => .ok v.display

/-- The texts of values, joined. -/
def joined (sep : Text) (values : List Value) : Except Refusal Text :=
  if values.any (·.isHole) then .error .noValue else .ok (Value.joinAll sep values)

/-- Whether a value counts as true. -/
def truth : Value → Except Refusal Bool
  | .hole => .error .noValue
  | v => .ok v.isTruthy

/-- A fault of types. -/
def typeFault (message : Text) : Refusal := .fault (.of .typeMismatch message)

def stringOf : Value → Except Refusal Text
  | .text t => .ok t
  | .hole => .error .noValue
  | v => .error (typeFault ("expected a string (" ++ v.typeName ++ " given)"))

def numberOf : Value → Except Refusal Float
  | .number x => .ok x
  | .hole => .error .noValue
  | v => .error (typeFault ("expected a number (" ++ v.typeName ++ " given)"))

/-- A fault about the arguments. -/
def argumentFault (message : Text) : Refusal := .fault (.of .unknownArg message)

def single (name : Text) (args : Args) : Except Refusal Value :=
  match args.positional with
  | [v] => .ok v
  | vs =>
    .error (argumentFault (name ++ ": expected 1 argument, got " ++ Text.ofNat vs.length))

/-- Writes the arguments with blanks between them, and ends the line unless told not to. -/
def runEcho (args : Args) : NativeResult := do
  let text ← joined " " args.positional
  let text ←
    match args.named? "text" with
    | some v => shown v
    | none => pure text
  let stays ←
    match args.named? "no-newline" with
    | some v => truth v
    | none => pure false
  return (.null, if stays then text else text ++ [Text.byte '\n'])

/-- A text with its lines numbered. -/
def numberLines (t : Text) : Text :=
  (Text.splitOn (Text.byte '\n') (Text.dropTail "\n" t)).zipIdx.flatMap fun (line, i) =>
    Text.padLeft 6 (Text.ofNat (i + 1)) ++ Text.byte '\t' :: line ++ [Text.byte '\n']

/-- The contents of a file. -/
def runCat (host : Host) (args : Args) : NativeResult := do
  let some path := args.get? "path" 0 | throw (argumentFault "cat: missing path")
  let path ← stringOf path
  let path ←
    match Path.expand host.home path with
    | .ok p => pure p
    | .error message => throw (.plain message)
  let contents ←
    match host.disk path with
    | none => throw (.awaiting path)
    | some (.error message) => throw (.fault (.of .invalidOperation ("cat: " ++ message)))
    | some (.ok t) => pure t
  let isNumbered ←
    match args.named? "numbered" with
    | some v => truth v
    | none => pure false
  return (.text (if isNumbered then numberLines contents else contents), [])

/-- The number of characters of a string or of fields of a record. -/
def runLength (args : Args) : NativeResult := do
  match ← single "length" args with
  | .text t => return (.number (Binary.ofInt t.runeCount), [])
  | .record fields => return (.number (Binary.ofInt fields.length), [])
  | .hole => throw .noValue
  | v => throw (typeFault ("length: unsupported argument (" ++ v.typeName ++ " given)"))

/-- A string with a map of texts applied to it. -/
def mapText (name : Text) (f : Text → Text) (args : Args) : NativeResult := do
  let t ← stringOf (← single name args)
  return (.text (f t), [])

/-- The arguments joined, with a blank between them unless told otherwise. -/
def runJoin (args : Args) : NativeResult := do
  let sep ←
    match args.named? "sep" with
    | some v => shown v
    | none => pure (Text.spaces 1)
  return (.text (← joined sep args.positional), [])

def runType (args : Args) : NativeResult := do
  match ← single "type" args with
  | .hole => throw .noValue
  | v => return (.text v.typeName, [])

/-- The result of a builtin and the text that it writes. -/
def run (host : Host) (args : Args) : Native → NativeResult
  | .echo => runEcho args
  | .cat => runCat host args
  | .length => runLength args
  | .upper => mapText "upper" Text.upper args
  | .lower => mapText "lower" Text.lower args
  | .join => runJoin args
  | .type => runType args

end Native

namespace Builtin

/-- Checks the names of the arguments and runs the builtin. -/
def call (host : Host) (b : Builtin) (args : Args) : NativeResult :=
  match b.unknownName? args with
  | some e => .error (.fault e)
  | none =>
    match b.native with
    | some native => native.run host args
    | none => .error .noValue

/-- The builtins that are always there. -/
def always : List Builtin :=
  [{ id := 0, name := "length", native := some .length },
    { id := 1, name := "upper", native := some .upper },
    { id := 2, name := "lower", native := some .lower },
    { id := 3, name := "join", params := ["sep"], native := some .join },
    { id := 4, name := "type", native := some .type }]

/-- The commands that are built in. -/
def commands : List Builtin :=
  [{ id := 5, name := "echo", native := some .echo },
    { id := 6, name := "cat", native := some .cat }]

/-- The builtins that a table of commands makes available. A command accepts the argument names that
its entry lists. -/
def all (registry : Option Registry) : List Builtin :=
  always ++
    match registry with
    | none => []
    | some r =>
      commands.filterMap fun b =>
        (r.lookup b.name).exact.map fun c => { b with params := c.params.map (·.name) }

end Builtin
end Bareword
