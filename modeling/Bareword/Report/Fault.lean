import Bareword.Report.Code
import Bareword.Span

/-! # Faults

What can go wrong with a program, from reading its source to running it.

* `SyntaxFault`, `CompileFault`, `RuntimeFault`: a fault with its code and its place.
* `Fault`: any single fault.
* `Failure`: one fault or several.
* `Stop`: why work on a program ended before it was done.
-/

namespace Bareword.Report
set_option autoImplicit false

/-- A span of a source that may have a file name. -/
structure Location where
  filename : Text := []
  source : Text := []
  span : Span := .zero
  deriving DecidableEq, Repr, Inhabited

namespace Location

/-- The file name, if there is one, the line and the column. -/
def render (l : Location) : Text :=
  let place := (Position.ofOffset l.source l.span.start).render
  if l.filename.isEmpty then place else l.filename ++ ":" ++ place

end Location

/-- What is said of work that was called off if nobody says why. -/
def calledOff : Text := "context canceled"

/-- A region of a source that does not fit the grammar. -/
structure SyntaxFault where
  location : Location
  code : Text
  message : Text
  /-- The source text of the region. -/
  text : Text
  deriving DecidableEq, Repr, Inhabited

/-- The fault of a span of a source. -/
def SyntaxFault.ofSpan (filename source : Text) (span : Span) (code message : Text) : SyntaxFault :=
  ⟨⟨filename, source, span⟩, code, message, span.text source⟩

/-- A fault met while a tree is turned into a program or a program is linked. -/
structure CompileFault where
  location : Location
  code : Text
  message : Text
  note : Text := []
  /-- Whether the fault reports another one that lies beneath it. -/
  hasCause : Bool := false
  deriving DecidableEq, Repr, Inhabited

/-- A fault met while a program runs. Its location has no source until it is known. -/
structure RuntimeFault where
  location : Location := {}
  code : Text
  message : Text
  hint : Text := []
  deriving DecidableEq, Repr, Inhabited

/-- A runtime fault that has no location yet. -/
def RuntimeFault.of (code : Code) (message : Text) : RuntimeFault :=
  { code := code.text, message }

def RuntimeFault.isLocated (e : RuntimeFault) : Bool := !e.location.source.isEmpty

/-- The written formats that a program reads. -/
inductive Format where
  | toml
  | cbor
  deriving DecidableEq, Repr

inductive Fault where
  | parsing (e : SyntaxFault)
  | compiling (e : CompileFault)
  | running (e : RuntimeFault)
  /-- A fault that is only a message. -/
  | plain (message : Text)
  /-- A text that is not of the given format. -/
  | malformed (format : Format)
  deriving DecidableEq, Repr, Inhabited

namespace Fault

/-- The one-line message of a fault. -/
def message : Fault → Text
  | .parsing e => "syntax error: " ++ e.message ++ " (" ++ e.location.render ++ ")"
  | .compiling e => "compile error: " ++ e.message ++ " (" ++ e.location.render ++ ")"
  | .running e =>
    if e.isLocated then "runtime error: " ++ e.message ++ " (" ++ e.location.render ++ ")"
    else "runtime error: " ++ e.message
  | .plain m => m
  | .malformed _ => []

/-- The fault with another file name, if it has a place for one. -/
def withFilename (filename : Text) : Fault → Fault
  | .parsing e => .parsing { e with location := { e.location with filename } }
  | .compiling e => .compiling { e with location := { e.location with filename } }
  | .running e => .running { e with location := { e.location with filename } }
  | f => f

end Fault

/-- One fault or several. -/
inductive Failure where
  | one (fault : Fault)
  | many (faults : List Fault)
  deriving DecidableEq, Repr, Inhabited

namespace Failure

/-- Combines faults; one fault stands for itself. -/
def ofFaults : List Fault → Option Failure
  | [] => none
  | [f] => some (.one f)
  | fs => some (.many fs)

def faults : Failure → List Fault
  | .one f => [f]
  | .many fs => fs

/-- A fault as one line of a list. -/
def item (f : Fault) : Text := "\t* " ++ f.message ++ "\n"

/-- The message; several faults are listed one to a line. -/
def message : Failure → Text
  | .one f => f.message
  | .many fs => Text.ofNat fs.length ++ " errors occurred:\n" ++ fs.flatMap item

/-- The failure with another file name. -/
def withFilename (filename : Text) : Failure → Failure
  | .one f => .one (f.withFilename filename)
  | .many fs => .many (fs.map (·.withFilename filename))

/-- A failure that is only a message. -/
def plain (message : Text) : Failure := .one (.plain message)

end Failure

/-- Why work on a program ended before it was done. -/
inductive Stop where
  /-- There is a failure to report. -/
  | failed (failure : Failure)
  /-- A step has no meaning, and there is nothing to report. -/
  | breakdown
  /-- The contents of a file are needed that are not at hand. -/
  | awaiting (path : Text)
  deriving DecidableEq, Repr

/-- The stop of a single fault. -/
def Stop.fault (f : Fault) : Stop := .failed (.one f)

end Bareword.Report
