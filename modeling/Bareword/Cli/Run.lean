import Bareword.Cli.AsJson
import Bareword.Cli.Command
import Bareword.Program.Disassembly
import Bareword.Program.Wire
import Bareword.Registry.OfToml
import Bareword.Registry.Standard
import Bareword.Report.Render
import Bareword.Script
import Bareword.Value.Printed

/-! # The command line

What a command line does: what it prints, which files it writes and how it ends.

* `World`: what the command line works on.
* `Outcome`: what came of it.
* `Cli.run`: the outcome of some arguments.
* `Outcome.report`: the text that tells what went wrong.
-/

namespace Bareword.Cli
set_option autoImplicit false
-- Powers are those of the core library, whatever instances are imported later.
attribute [local instance (high)] instPowNat
open Report (Stop Failure Fault)

/-- What a command line works on. -/
structure World where
  host : Host
  stdin : Text := []
  /-- What is wrong with writing a file, if anything. -/
  unwritable? : Text → Option Text
  /-- How many steps a program takes at most. -/
  fuel : Nat

/-- What came of a command line. -/
structure Outcome where
  /-- What it printed. -/
  stdout : Text := []
  /-- The files that it wrote. -/
  written : List (Text × Text) := []
  /-- How it ended, if not well. -/
  stop : Option Stop := none

namespace Outcome

/-- A command line that ends before anything is printed. -/
def ofStop (e : Stop) : Outcome := { stop := some e }

def ofMessage (message : Text) : Outcome := ofStop (.fault (.plain message))

def ofText (t : Text) : Outcome := { stdout := t }

/-- A command line that prints a text and ends with a failure, if there is one. -/
def ofTextAnd (t : Text) (failure : Option Failure) : Outcome :=
  { stdout := t, stop := failure.map .failed }

/-- The text that tells what went wrong. -/
def report (f : Failure) : Text := Text.trimEnd (· == Text.byte '\n') (f.render false)

end Outcome

/-- A result, or the reason why there is none. -/
abbrev Step (α : Type) := Except Stop α

/-- The step that ends with a message. -/
def refuse {α : Type} (message : Text) : Step α := .error (.fault (.plain message))

/-! ## Settings -/

inductive Format where
  | unspecified
  | text
  | json
  deriving DecidableEq, Repr

def formatOf (p : Parsed) : Step Format :=
  let name := Text.lower ((p.value? "output").getD [])
  if name.isEmpty then .ok .unspecified
  else if name = "text" then .ok .text
  else if name = "json" then .ok .json
  else refuse ("unknown output format: " ++ name)

/-- The names of the levels from which on messages are logged. -/
def levelNames : List Text :=
  ["trace", "debug", "info", "warn", "error", "fatal", "panic", "disabled"]

/-- The integer that a text stands for: digits that may have a sign, in the range of a machine
word. -/
def integer? (t : Text) : Option Int :=
  let (sign, digits) : Int × Text :=
    match t with
    | b :: rest =>
      if b = Text.byte '-' then (-1, rest) else if b = Text.byte '+' then (1, rest) else (1, t)
    | [] => (1, [])
  if digits.isEmpty ∨ ¬ digits.all Text.isDigit then none
  else
    let n := sign * (digits.foldl (fun n b => n * 10 + (b.toNat - 48)) 0 : Nat)
    if -(2 ^ (63 : Nat) : Int) ≤ n ∧ n < (2 ^ (63 : Nat) : Int) then some n else none

/-- Checks the level from which on messages are logged: a name or a small number. -/
def checkLevel (p : Parsed) : Step Unit :=
  let level := (p.value? "log-level").getD "warn"
  if level.isEmpty ∨ levelNames.contains level.lower then .ok ()
  else
    match integer? level with
    | none => refuse ("Unknown Level String: '" ++ level ++ "', defaulting to NoLevel")
    | some n =>
      if n > 127 ∨ n < -128 then
        refuse ("Out-Of-Bounds Level: '" ++ Text.decimal n ++ "', defaulting to NoLevel")
      else .ok ()

def expand (w : World) (path : Text) : Step Text :=
  match Path.expand w.host.home path with
  | .ok p => .ok p
  | .error message => refuse message

def readFile (w : World) (path : Text) : Step (Except Text Text) :=
  match w.host.disk path with
  | none => .error (.awaiting path)
  | some contents => .ok contents

/-- The table of commands that is asked for. -/
def registryOf (w : World) (p : Parsed) : Step Registry := do
  let path := (p.value? "registry").getD []
  if path.isEmpty then return Registry.standard
  let path ← expand w path
  match ← readFile w path with
  | .error message => refuse ("cannot read " ++ path ++ ": " ++ message)
  | .ok contents =>
    match Registry.ofToml contents with
    | .ok r => return r
    | .error (.plain message) => refuse ("parse error in " ++ path ++ ": " ++ message)
    | .error e => throw (.fault e)

/-! ## Sources -/

structure Source where
  code : Text
  filename : Text := []
  deriving DecidableEq, Repr

/-- The ending of the names of files that hold compiled programs. -/
def compiledExtension : Text := ".shb"

def Source.isCompiled (s : Source) : Bool := Path.extension s.filename == compiledExtension

/-- The program that is asked for: a text on the command line, the standard input or a file. There
has to be exactly one of them. -/
def sourceOf (w : World) (p : Parsed) : Step Source := do
  match p.value? "code", p.isOn "stdin", p.words with
  | none, false, [] => refuse "no input provided"
  | some code, false, [] => return { code }
  | none, true, [] => return { code := w.stdin }
  | none, false, path :: _ =>
    match ← readFile w (← expand w path) with
    | .error message => refuse message
    | .ok code => return { code, filename := path }
  | _, _, _ => refuse "multiple input sources specified"

/-- The script of a source, with the table of commands that is asked for. -/
def scriptOf (w : World) (p : Parsed) (s : Source) : Step Script := do
  let registry ← registryOf w p
  checkLevel p
  return { source := s.code, filename := s.filename, registry := some registry }

/-- The program of a source, compiled or decoded. -/
def programOf (w : World) (p : Parsed) (s : Source) : Step Program :=
  if s.isCompiled then
    match Program.ofBytes s.code with
    | .ok program => .ok program
    | .error e => .error (.fault e.toFault)
  else do (← scriptOf w p s).compile

/-! ## Printing -/

def line (t : Text) : Text := t ++ [Text.byte '\n']

/-- Prints a JSON value after some text, and goes on unless it has none. -/
def printJson (before : Text) (j : Json) (failure : Option Failure) : Outcome :=
  match j.render with
  | .ok t => .ofTextAnd (before ++ line t) failure
  | .error message => { stdout := before, stop := some (.fault (.plain message)) }

def padRight (n : Nat) (t : Text) : Text := t ++ Text.spaces (n - Text.runeCount t)

/-- A token as a line: where it starts, its kind and its text. -/
def tokenLine (code : Text) (t : Token) : Text :=
  line (padRight 8 (Position.ofOffset code t.start).render ++ " " ++
    padRight 22 t.kind.name ++ " " ++ Text.quoted t.text)

/-- A command as a line: its name, its parameters and what it does. -/
def commandLine (c : Command) : Text :=
  line (c.name ++ "\t" ++ Text.join " " (c.params.map (·.name)) ++ "\t" ++ c.description)

/-! ## The commands -/

/-- Prints the tokens of a program. As JSON they are printed whether the program is sound or not. -/
def runTokens (w : World) (p : Parsed) : Step Outcome := do
  let source ← sourceOf w p
  let format ← formatOf p
  let parsed := (← scriptOf w p source).parse
  if format = .json then
    return printJson [] (.list (parsed.tokens.map Token.toJson)) none
  return .ofTextAnd (parsed.tokens.flatMap (tokenLine source.code)) parsed.failure?

def runTree (w : World) (p : Parsed) : Step Outcome := do
  let source ← sourceOf w p
  let format ← formatOf p
  let parsed := (← scriptOf w p source).parse
  if format = .json then return printJson [] parsed.tree.toJson parsed.failure?
  return .ofTextAnd (line parsed.tree.dump) parsed.failure?

def runCompile (w : World) (p : Parsed) : Step Outcome := do
  let program ← programOf w p (← sourceOf w p)
  let path := (p.value? "out").getD []
  if path.isEmpty then return .ofText program.listing
  match w.unwritable? path with
  | some message => refuse message
  | none => return { written := [(path, program.toBytes)] }

def runDisassemble (w : World) (p : Parsed) : Step Outcome := do
  let program ← programOf w p (← sourceOf w p)
  match program.disassemble with
  | .error e => throw (.fault (.compiling e))
  | .ok ds => return .ofText (Disassembly.render false ds)

/-- Prints the value that a program ends with. Unless a format is asked for, nothing is printed for
null. -/
def printResult (output : Text) (format : Format) (v : Value) : Outcome :=
  match format, v with
  | .json, v => printJson output v.toJson none
  | .unspecified, .null => .ofText output
  | _, v => .ofText (output ++ line v.printed)

/-- Runs a program. Without enough fuel there is no answer. -/
def runProgram (w : World) (p : Parsed) : Step (Option Outcome) := do
  let source ← sourceOf w p
  let format ← formatOf p
  let program ← programOf w p source
  let script ← scriptOf w p source
  let start : Machine.Start := { host := w.host, fuel := w.fuel }
  match Script.runOn (Script.machine script.registry [] program) start with
  | none => return none
  | some r =>
    match r.value with
    | .error e => return some { stdout := r.output, stop := some e }
    | .ok v => return some (if v.isHole then { stdout := r.output, stop := some .breakdown }
        else printResult r.output format v)

/-- Prints the commands whose names start with a text. -/
def runComplete (w : World) (p : Parsed) : Step Outcome := do
  let format ← formatOf p
  let found := (← registryOf w p).lookup (p.words.headD [])
  if format = .json then return printJson [] found.toJson none
  return .ofText (found.starting.flatMap commandLine)

def versionParts : List (Text × Text) :=
  [("commit", "unknown"), ("date", "unknown"), ("version", "dev")]

def runVersion (p : Parsed) : Step Outcome := do
  let format ← formatOf p
  let part (name : Text) : Text := (versionParts.lookup name).getD []
  if format = .json then
    return printJson [] (.object (versionParts.map fun (k, v) => (k, .text v))) none
  return .ofText (line (programName ++ " " ++ part "version" ++ " (" ++ part "commit" ++ ", " ++
    part "date" ++ ")"))

/-- An explanation of the commands. -/
def usage : Text :=
  line ("Usage: " ++ programName ++ " [command]") ++
    Verb.all.flatMap fun v => line ("  " ++ padRight 10 v.name ++ " " ++ v.summary)

def runVerb (w : World) (p : Parsed) : Verb → Step (Option Outcome)
  | .tokens => (runTokens w p).map some
  | .cst => (runTree w p).map some
  | .compile => (runCompile w p).map some
  | .dis => (runDisassemble w p).map some
  | .run => runProgram w p
  | .complete => (runComplete w p).map some
  | .version => (runVersion p).map some

/-- The outcome of some arguments. Without enough fuel there is none. -/
def run (w : World) (args : List Text) : Option Outcome :=
  match Call.ofArgs args with
  | .error message => some (.ofMessage message)
  | .ok .help => some (.ofText usage)
  | .ok (.verb v p) =>
    match runVerb w p v with
    | .error e => some (.ofStop e)
    | .ok outcome => outcome

end Bareword.Cli
