import Bareword.Cli.Flag
import Bareword.Report.Suggest

/-! # Commands

The commands of the command line, the flags that each of them takes and the number of words that it
accepts.

* `Verb`: the commands.
* `Call.ofArgs`: the command that arguments ask for, with its flags and words.
-/

namespace Bareword.Cli
set_option autoImplicit false

inductive Verb where
  /-- Print the tokens of a program. -/
  | tokens
  /-- Print the tree of a program. -/
  | cst
  /-- Compile a program, and print its listing or store it. -/
  | compile
  /-- Print the instructions of a program as a table. -/
  | dis
  /-- Run a program. -/
  | run
  /-- Print the commands whose names start with a text. -/
  | complete
  /-- Print the version. -/
  | version
  deriving DecidableEq, Repr

namespace Verb

def all : List Verb := [.tokens, .cst, .compile, .dis, .run, .complete, .version]

def name : Verb → Text
  | .tokens => "tokens"
  | .cst => "cst"
  | .compile => "compile"
  | .dis => "dis"
  | .run => "run"
  | .complete => "complete"
  | .version => "version"

/-- What a command does, in a few words. -/
def summary : Verb → Text
  | .tokens => "Print the tokens of a program"
  | .cst => "Print the concrete syntax tree of a program"
  | .compile => "Compile a program and print its listing"
  | .dis => "Disassemble a program"
  | .run => "Run a program or a compiled .shb file"
  | .complete => "List the registered commands starting with prefix"
  | .version => "Print version information"

/-- Whether a command works on a program. -/
def readsProgram : Verb → Bool
  | .complete | .version => false
  | _ => true

end Verb

def programName : Text := "shrimp"

/-- The name of the command that prints a script for completion. -/
def completionName : Text := "completion"

/-- The name of the command that explains the others. -/
def helpName : Text := "help"

/-! ## Flags -/

/-- The flags that every command takes. -/
def commonFlags : Flags :=
  [{ name := "config" }, { name := "log-level" }, { name := "no-color", isSwitch := true },
    { name := "registry" }, { name := "output", letter := some (Text.byte 'o') }]

def helpFlag : Flag := { name := helpName, letter := some (Text.byte 'h'), isSwitch := true }

/-- The flags of commands that work on a program. -/
def sourceFlags : Flags :=
  [{ name := "code", letter := some (Text.byte 'c') }, { name := "stdin", isSwitch := true }]

def Verb.flags (v : Verb) : Flags :=
  helpFlag :: commonFlags ++
    (if v.readsProgram then sourceFlags else []) ++
    (if v = .compile then [{ name := "out" }] else [])

/-! ## Words -/

/-- What is wrong with the words of a command. -/
def Verb.badWords? (v : Verb) (words : List Text) : Option Text :=
  let received : Text := " arg(s), received " ++ Text.ofNat words.length
  match v with
  | .version =>
    words.head?.map fun w =>
      "unknown command " ++ Text.quoted w ++ " for " ++
        Text.quoted (programName ++ " " ++ v.name)
  | .complete => if words.length = 1 then none else some ("accepts 1" ++ received)
  | _ => if words.length ≤ 1 then none else some ("accepts at most 1" ++ received)

/-! ## Finding the command -/

/-- Whether a name is offered for a word that is no command: it starts with the word, or it is at
most two edits away. -/
def isOffered (word name : Text) : Bool :=
  let distance := Report.distance (word.lower.map (·.toNat)) (name.lower.map (·.toNat))
  distance ≤ 2 || word.lower.isPrefixOf name.lower

def unknownCommand (word : Text) : Text :=
  let offered := (Verb.all.map (·.name) ++ [completionName]).filter (isOffered word)
  let names : Text := offered.flatMap fun n => Text.byte '\t' :: n ++ [Text.byte '\n']
  let offer : Text := if offered.isEmpty then [] else "\n\nDid you mean this?\n" ++ names
  "unknown command " ++ Text.quoted word ++ " for " ++ Text.quoted programName ++ offer

/-- What arguments ask for. -/
inductive Call where
  | verb (v : Verb) (parsed : Parsed)
  /-- An explanation of the commands. -/
  | help
  deriving DecidableEq, Repr

/-- What arguments ask for, or what is wrong with them. Bad flags come before bad words. -/
def Call.ofArgs (args : List Text) : Except Text Call :=
  match commonFlags.firstWord? args with
  | none =>
    match Flags.parse (helpFlag :: commonFlags) args with
    | .error e => .error e
    | .ok _ => .ok .help
  | some word =>
    match Verb.all.find? (·.name == word) with
    | none =>
      if word = helpName ∨ word = completionName then .ok .help else .error (unknownCommand word)
    | some v =>
      match v.flags.parse (commonFlags.dropWord word args) with
      | .error e => .error e
      | .ok parsed =>
        if parsed.isOn helpName then .ok .help
        else
          match v.badWords? parsed.words with
          | some message => .error message
          | none => .ok (.verb v parsed)

end Bareword.Cli
