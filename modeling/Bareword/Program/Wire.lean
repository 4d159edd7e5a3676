import Bareword.Cbor.Read
import Bareword.Digest
import Bareword.Program.Basic
import Bareword.Report.Fault

/-! # Stored programs

A program is stored as a record of numbered fields. Fields that hold nothing are left out when a
program is written, and a field that is missing holds nothing when it is read.

* `Program.toBytes`: a program as it is stored.
* `Program.ofBytes`: the program that some bytes store.
* `Program.fingerprint`: a fingerprint of a stored program.
-/

namespace Bareword
set_option autoImplicit false

open Cbor (Item)

namespace Program

def formatVersion : Int := 1

/-! ## Writing -/

/-- A field that is left out when it holds nothing. -/
def optional (field : Nat) (isEmpty : Bool) (item : Item) : List (Item × Item) :=
  if isEmpty then [] else [(.unsigned field, item)]

/-- A field that is always written. -/
def required (field : Nat) (item : Item) : List (Item × Item) := [(.unsigned field, item)]

def literalItem (l : Literal) : Item :=
  .map (required 1 (.unsigned l.kind.code.toNat) ++
    optional 2 (!l.flag) (Item.ofBool l.flag) ++
    optional 3 (l.number == 0) (Item.ofFloat l.number) ++
    optional 4 l.text.isEmpty (Item.ofText l.text) ++
    optional 5 l.flags.isEmpty (Item.ofText l.flags))

/-- An instruction as a record. Only a push has its literal written. -/
def instructionItem (i : Instruction) : Item :=
  .map (required 1 (.unsigned i.op.code.toNat) ++
    optional 2 (i.op != .push) (literalItem i.value) ++
    optional 3 i.name.isEmpty (Item.ofText i.name) ++
    optional 4 i.params.isEmpty (Item.ofTexts i.params) ++
    optional 5 i.label.isEmpty (Item.ofText i.label) ++
    optional 6 (i.mode.code == 0) (.unsigned i.mode.code.toNat) ++
    optional 7 (i.target == 0) (Item.ofInt i.target.toInt) ++
    optional 8 (i.count == 0) (Item.ofInt i.count.toInt) ++
    required 9 (.array [Item.ofInt i.span.start, Item.ofInt i.span.stop]))

def toItem (p : Program) : Item :=
  .map (required 1 (Item.ofInt formatVersion) ++
    optional 2 p.filename.isEmpty (Item.ofText p.filename) ++
    optional 3 p.source.isEmpty (Item.ofText p.source) ++
    optional 4 (!p.linked) (Item.ofBool p.linked) ++
    optional 5 p.functions.isEmpty (Item.ofTexts p.functions) ++
    required 6 (.array (p.instructions.map instructionItem)))

def toBytes (p : Program) : Text := p.toItem.encode

/-- A fingerprint of a stored program. -/
def fingerprint (p : Program) : UInt64 := Digest.fingerprint p.toBytes

/-! ## Reading -/

def literal? (item : Item) : Option Literal := do
  let r ← item.asRecord?
  let kind ← Item.field? r 1 0 (Item.asNat? 256)
  let flag ← Item.field? r 2 false Item.asBool?
  let number ← Item.field? r 3 0 Item.asFloat?
  let text ← Item.field? r 4 [] Item.asText?
  let flags ← Item.field? r 5 [] Item.asText?
  return { kind := .ofCode kind.toUInt8, flag, number, text, flags }

/-- The span of a sequence of two offsets. Missing offsets are zero and further ones are
ignored. -/
def span? : Item → Option Span :=
  Item.value? .zero fun item =>
    match item with
    | .array items => do
      let start ← (items[0]?.map Item.asInt?).getD (some 0)
      let stop ← (items[1]?.map Item.asInt?).getD (some 0)
      return ⟨start, stop⟩
    | _ => none

def instruction? (item : Item) : Option Instruction := do
  let r ← item.asRecord?
  let code ← Item.field? r 1 0 (Item.asNat? 256)
  let value ← Item.field? r 2 {} literal?
  let name ← Item.field? r 3 [] Item.asText?
  let params ← Item.field? r 4 [] (Item.asList? Item.asText?)
  let label ← Item.field? r 5 [] Item.asText?
  let mode ← Item.field? r 6 0 (Item.asNat? 256)
  let target ← Item.field? r 7 0 Item.asInt?
  let count ← Item.field? r 8 0 Item.asInt?
  let span ← Item.field? r 9 .zero span?
  return { op := .ofCode code.toUInt8, value, name, params, label, mode := .ofCode mode.toUInt8,
           target := Int64.ofInt target, count := Int64.ofInt count, span }

/-- The version and the program of a record. -/
def ofItem? (item : Item) : Option (Int × Program) := do
  let r ← item.asRecord?
  let version ← Item.field? r 1 0 Item.asInt?
  let filename ← Item.field? r 2 [] Item.asText?
  let source ← Item.field? r 3 [] Item.asText?
  let linked ← Item.field? r 4 false Item.asBool?
  let functions ← Item.field? r 5 [] (Item.asList? Item.asText?)
  let instructions ← Item.field? r 6 [] (Item.asList? instruction?)
  return (version, { instructions, functions, source, filename, linked })

/-- Why bytes store no program. -/
inductive WireFault where
  | malformed
  | unsupportedVersion (version : Int)
  | invalidOpcode (code : UInt8) (index : Nat)
  deriving DecidableEq

def WireFault.toFault : WireFault → Report.Fault
  | .malformed => .malformed .cbor
  | .unsupportedVersion v => .plain ("bytecode: unsupported format version " ++ Text.decimal v)
  | .invalidOpcode c i =>
    .plain ("bytecode: invalid opcode " ++ Text.ofNat c.toNat ++ " at " ++ Text.ofNat i)

/-- The first instruction without an operation. -/
def firstUndefined? (p : Program) : Option (UInt8 × Nat) :=
  (p.instructions.zipIdx.find? fun (i, _) => i.op.mnemonic?.isNone).map fun (i, n) => (i.op.code, n)

def ofBytes (s : Text) : Except WireFault Program :=
  match (Item.ofBytes? s).bind ofItem? with
  | none => .error .malformed
  | some (version, p) =>
    if version ≠ formatVersion then .error (.unsupportedVersion version)
    else
      match p.firstUndefined? with
      | some (code, index) => .error (.invalidOpcode code index)
      | none => .ok p

end Program
end Bareword
