import Bareword.Cli.Run

/-! # The program

Reads the files that a command line asks for, prints what came of it and writes its files.
-/

namespace Bareword.Cli.Shell
set_option autoImplicit false

def bytes (t : Text) : ByteArray := ⟨t.toArray⟩

/-- The string of a text, empty if it has none. -/
def string (t : Text) : String := t.toString?.getD ""

/-- What is wrong with a file, in a few words. -/
def reason : IO.Error → Text
  | .noFileOrDirectory .. => "no such file or directory"
  | .permissionDenied .. => "permission denied"
  | .inappropriateType .. => "is a directory"
  | e => toString e

/-- The contents of a file, or what is wrong with it. -/
def fetch (path : Text) : IO (Except Text Text) := do
  try
    let contents ← IO.FS.readBinFile (string path)
    return .ok contents.toList
  catch e =>
    let verb : Text := match e with
      | .inappropriateType .. => "read"
      | _ => "open"
    return .error (Disk.complaint verb path (reason e))

/-- The outcome of a command line. Files are read when they are asked for, and then it starts over.
-/
partial def outcome (args : List Text) (home stdin : Text)
    (known : List (Text × Except Text Text)) : IO Cli.Outcome := do
  let world : Cli.World :=
    { host := ⟨fun path => known.lookup path, home⟩, stdin, unwritable? := fun _ => none,
      fuel := 2 ^ 62 }
  let result := (Cli.run world args).getD {}
  match result.stop with
  | some (.awaiting path) => outcome args home stdin ((path, ← fetch path) :: known)
  | _ => return result

/-- Everything that is left of the standard input. -/
partial def readAll (input : IO.FS.Stream) (before : ByteArray) : IO ByteArray := do
  let more ← input.read 4096
  if more.isEmpty then return before else readAll input (before ++ more)

/-- The standard input, if a command line asks for it. -/
def stdinFor (args : List Text) : IO Text := do
  match Cli.Call.ofArgs args with
  | .ok (.verb _ parsed) =>
    if parsed.isOn "stdin" then return (← readAll (← IO.getStdin) .empty).toList else return []
  | _ => return []

def fail (message : Text) : IO UInt32 := do
  (← IO.getStderr).write (bytes (message ++ [Text.byte '\n']))
  return 1

end Bareword.Cli.Shell

open Bareword Bareword.Cli.Shell in
def main (args : List String) : IO UInt32 := do
  let args := args.map Text.ofString
  let home := Text.ofString ((← IO.getEnv "HOME").getD "")
  let result ← outcome args home (← stdinFor args) []
  (← IO.getStdout).write (bytes result.stdout)
  for (path, contents) in result.written do
    try
      IO.FS.writeBinFile (string path) (bytes contents)
    catch e => return ← fail (Cli.Outcome.report (.plain (Disk.complaint "open" path (reason e))))
  match result.stop with
  | none => return 0
  | some (.failed failure) => fail (Cli.Outcome.report failure)
  | some _ => fail "the program broke down"
