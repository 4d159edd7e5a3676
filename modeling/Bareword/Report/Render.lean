import Bareword.Report.Fault
import Bareword.Report.Paint

/-! # Rendering faults

A fault is shown with a header, its place and the source lines above it, and the span underlined.

* `Notice`: a fault ready for display.
* `Notice.locate?`: the line, the columns and the source lines of a span.
* `Notice.render`, `renderAll`: one notice or several numbered ones as text.
* `Failure.render`: a failure as text.
-/

namespace Bareword.Report
set_option autoImplicit false

structure SourceLine where
  number : Int
  text : Text
  /-- Whether the fault points into this line. -/
  isMain : Bool
  deriving DecidableEq, Repr, Inhabited

/-- A fault ready for display. Columns count from one and both ends are underlined; line zero stands
for no place. -/
structure Notice where
  code : Text := []
  kind : Text := []
  message : Text := []
  filename : Text := []
  line : Int := 0
  column : Int := 0
  endColumn : Int := 0
  lines : List SourceLine := []
  hint : Text := []
  note : Text := []
  deriving DecidableEq, Repr, Inhabited

/-- How many lines are shown above the line of a fault. -/
def contextLines : Nat := 7

namespace Notice

/-! ## Locating -/

/-- The lines from `first` to `last`, counted from zero; the last one is the main one. -/
def sourceLines (lines : List Text) (first last : Nat) : List SourceLine :=
  (List.range (last + 1 - first)).map fun i =>
    { number := (first + i : Nat) + 1
      text := Text.trimEnd (· == Text.byte '\r') (lines.getD (first + i) [])
      isMain := first + i == last }

/-- The line, the columns to underline and the source lines of a span, unless it lies outside the
source. The underline stays on the line, but it may stand one column past its end. -/
def locate? (span : Span) (source : Text) : Option Notice :=
  if span.start < 0 ∨ span.stop < span.start ∨ span.start > source.length then none
  else
    let start := Position.ofOffset source span.start
    let lines := Text.splitOn (Text.byte '\n') source
    let lineLength := Text.runeCount (lines.getD start.line [])
    let endColumn :=
      if span.stop > span.start then
        let stop := Position.ofOffset source span.stop
        if stop.line = start.line then stop.column else lineLength
      else start.columnNumber
    let column := min start.columnNumber (lineLength + 1)
    some
      { kind := "error"
        line := start.lineNumber
        column := column
        endColumn := max (min endColumn (lineLength + 1)) column
        lines := sourceLines lines (start.line - contextLines) start.line }

/-- The notice of a place. -/
def ofLocation (l : Location) (kind : Text) (code message : Text) : Notice :=
  { (locate? l.span l.source).getD {} with kind, code, message, filename := l.filename }

/-- The notice of a fault. -/
def ofFault : Fault → Notice
  | .parsing e => ofLocation e.location "syntax error" e.code e.message
  | .compiling e => { ofLocation e.location "compile error" e.code e.message with note := e.note }
  | .running e =>
    let notice :=
      if e.isLocated then ofLocation e.location "runtime error" e.code e.message
      else { kind := "runtime error", code := e.code, message := e.message }
    { notice with hint := e.hint }
  | f => { message := f.message }

/-! ## Layout -/

/-- The width of the column of line numbers. -/
def gutterWidth (n : Notice) : Nat :=
  n.lines.foldl (fun w l => max w (Text.decimal l.number).length) 2

/-- The kind of fault, its code or else its number among several, and the message. -/
def header (color : Bool) (numbering : Text) (n : Notice) : Text :=
  let label : Text := if n.kind.isEmpty then "error" else n.kind
  let tag := if n.code.isEmpty then numbering else n.code
  paint color [.brightRed, .bold] label ++
    (if tag.isEmpty then [] else paint color [.brightBlack] ("[" ++ tag ++ "]")) ++
    paint color [.red] ": " ++ n.message ++ "\n"

/-- The line that says where the fault is. -/
def place (color : Bool) (n : Notice) : Text :=
  if n.line = 0 ∧ n.filename.isEmpty then []
  else
    let here := Text.decimal n.line ++ ":" ++ Text.decimal n.column
    let target :=
      if !n.filename.isEmpty ∧ n.line > 0 then n.filename ++ ":" ++ here
      else if !n.filename.isEmpty then n.filename
      else here
    Text.spaces n.gutterWidth ++ paint color [.cyan] "-->" ++ " " ++ paint color [.cyan] target ++
      "\n"

/-- The underline below the main line. -/
def underline (color : Bool) (n : Notice) : Text :=
  let count := if n.endColumn > n.column then (n.endColumn - n.column + 1).toNat else 1
  Text.spaces n.gutterWidth ++ paint color [.brightBlack] " | " ++
    Text.spaces (n.column - 1).toNat ++
    paint color [.brightRed] (List.replicate count (Text.byte '^')) ++ "\n"

/-- One source line, with the underline below the main one. -/
def sourceLine (color : Bool) (n : Notice) (l : SourceLine) : Text :=
  paint color [.brightBlack] (Text.padLeft n.gutterWidth (Text.decimal l.number) ++ " | ") ++
    paint color [.white] l.text ++ "\n" ++
    (if l.isMain ∧ n.column > 0 then n.underline color else [])

def source (color : Bool) (n : Notice) : Text :=
  if n.lines.isEmpty then []
  else
    Text.spaces n.gutterWidth ++ paint color [.brightBlack] " |" ++ "\n" ++
      n.lines.flatMap (n.sourceLine color)

/-- A labelled remark below the source. -/
def remark (color : Bool) (n : Notice) (tint : Attribute) (label text : Text) : Text :=
  if text.isEmpty then []
  else
    Text.spaces n.gutterWidth ++ paint color [.brightBlack] " = " ++
      paint color [tint] label ++ text ++ "\n"

/-- A notice as text; `numbering` is shown when it has no code. -/
def render (color : Bool) (numbering : Text) (n : Notice) : Text :=
  n.header color numbering ++ n.place color ++ n.source color ++
    n.remark color .brightYellow "hint: " n.hint ++ n.remark color .brightBlue "note: " n.note

/-- Several notices, each with its number, and how many there are. -/
def renderAll (color : Bool) (notices : List Notice) : Text :=
  match notices with
  | [] => []
  | [n] => n.render color []
  | _ =>
    let count := Text.ofNat notices.length
    let numbered := notices.zipIdx.map fun (n, i) =>
      n.render color (Text.ofNat (i + 1) ++ "/" ++ count)
    Text.join "\n" numbered ++ "\n" ++
      paint color [.brightRed, .bold] ("found " ++ count ++ " errors") ++ "\n"

end Notice

/-- A failure as text. -/
def Failure.render (color : Bool) (failure : Failure) : Text :=
  Notice.renderAll color (failure.faults.map Notice.ofFault)

/-- A message about a span of a source; outside the source only the offsets are given. -/
def renderSpan (message : Text) (span : Span) (source : Text) : Text :=
  match Notice.locate? span source with
  | none =>
    message ++ " at position " ++ Text.decimal span.start ++ ":" ++ Text.decimal span.stop
  | some notice => { notice with message }.render false []

end Bareword.Report
