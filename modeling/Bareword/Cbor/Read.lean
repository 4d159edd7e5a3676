import Bareword.Cbor.Item
import Bareword.Text.Rune

/-! # Reading data items

Reading is more generous than writing: heads need not be in their shortest form, strings, sequences
and maps may be of unknown length, and items may be tagged. Nesting and sizes are bounded.

* `Item.read`: the item at the start of some bytes.
* `Item.ofBytes?`: the item that some bytes are.
* `Item.asInt?`, `Item.asFloat?`, `Item.asText?`, ...: the value of an item. Null stands for the
  zero of every type.
-/

namespace Bareword.Cbor
set_option autoImplicit false
-- Powers are those of the core library, whatever instances are imported later.
attribute [local instance (high)] instPowNat

/-! ## Limits -/

def maxNesting : Nat := 32

def maxElements : Nat := 131072

/-! ## Heads -/

/-- The head of an item: its major type, the information in its first byte and its argument. -/
structure Head where
  major : Nat
  info : Nat
  argument : Nat
  deriving Repr

/-- The number written in the first `n` bytes, the highest first, and what follows. -/
def readBigEndian (n : Nat) (s : Text) : Option (Nat × Text) :=
  if s.length < n then none
  else some ((s.take n).foldl (fun acc b => acc * 256 + b.toNat) 0, s.drop n)

def readHead : Text → Option (Head × Text)
  | [] => none
  | b :: s =>
    let major := b.toNat / 32
    let info := b.toNat % 32
    let long (n : Nat) : Option (Head × Text) :=
      (readBigEndian n s).map fun (argument, s) => (⟨major, info, argument⟩, s)
    if info < 24 then some (⟨major, info, info⟩, s)
    else if info = 24 then
      (long 1).filter fun (h, _) => decide (major ≠ 7 ∨ 32 ≤ h.argument)
    else if info = 25 then long 2
    else if info = 26 then long 4
    else if info = 27 then long 8
    else if info = 31 ∧ 2 ≤ major ∧ major ≤ 5 then some (⟨major, info, 0⟩, s)
    else none

/-- Whether the head opens something of unknown length. -/
def Head.isOpen (h : Head) : Bool := h.info == 31

/-! ## Items -/

/-- Reads `n` things one after the other. -/
def readMany {α : Type} (item : Text → Option (α × Text)) : Nat → Text → Option (List α × Text)
  | 0, s => some ([], s)
  | n + 1, s =>
    match item s with
    | none => none
    | some (x, s) => (readMany item n s).map fun (xs, s) => (x :: xs, s)

/-- Reads things up to a break. The fuel bounds their number. -/
def readUntilBreak {α : Type} (item : Text → Option (α × Text)) :
    Nat → Text → Option (List α × Text)
  | 0, _ => none
  | fuel + 1, s =>
    if s.head? = some Item.breakByte then some ([], s.drop 1)
    else
      match item s with
      | none => none
      | some (x, s) => (readUntilBreak item fuel s).map fun (xs, s) => (x :: xs, s)

/-- Reads a piece of a string of the given major type. -/
def readPiece (major : Nat) (s : Text) : Option (Text × Text) :=
  match readHead s with
  | none => none
  | some (h, s) =>
    if h.major ≠ major ∨ h.isOpen ∨ s.length < h.argument then none
    else some (s.take h.argument, s.drop h.argument)

def readEntry (item : Text → Option (Item × Text)) (s : Text) : Option ((Item × Item) × Text) :=
  match item s with
  | none => none
  | some (key, s) => (item s).map fun (value, s) => ((key, value), s)

/-- Reads an item that may be tagged; `inner` reads what a tag may stand in front of. -/
def readTagged (inner : Text → Option (Item × Text)) (s : Text) : Option (Item × Text) :=
  match readHead s with
  | none => none
  | some (h, rest) =>
    if h.major = 6 then (inner rest).map fun (item, s) => (.tagged h.argument item, s) else inner s

/-- Reads the elements of a sequence or a map with a head. -/
def readElements {α : Type} (element : Text → Option (α × Text)) (h : Head) (s : Text) :
    Option (List α × Text) :=
  if h.isOpen then
    (readUntilBreak element (s.length + 1) s).filter fun (xs, _) =>
      decide (xs.length ≤ maxElements)
  else if h.argument > maxElements then none
  else readMany element h.argument s

/-- Reads one item. With no reader for what it holds, it can be neither a sequence nor a map nor a
tagged item. -/
def readItem (inner : Option (Text → Option (Item × Text))) (s : Text) : Option (Item × Text) :=
  match readHead s with
  | none => none
  | some (h, rest) =>
    match h.major with
    | 0 => some (.unsigned h.argument, rest)
    | 1 => some (.negative h.argument, rest)
    | 2 | 3 =>
      let pieces :=
        if h.isOpen then readUntilBreak (readPiece h.major) (rest.length + 1) rest
        else (readPiece h.major s).map fun (piece, s) => ([piece], s)
      pieces.map fun (ps, s) => (if h.major = 2 then .bytes ps else .text ps, s)
    | 4 =>
      inner.bind fun inner =>
        (readElements (readTagged inner) h rest).map fun (items, s) => (.array items, s)
    | 5 =>
      inner.bind fun inner =>
        (readElements (readEntry (readTagged inner)) h rest).map fun (es, s) => (.map es, s)
    | 6 =>
      inner.bind fun inner =>
        (inner rest).map fun (item, s) => (.tagged h.argument item, s)
    | _ =>
      match h.info with
      | 25 => some (.half h.argument, rest)
      | 26 => some (.single h.argument, rest)
      | 27 => some (.double h.argument, rest)
      | _ => some (.simple h.argument, rest)

/-- Reads an item under at most so many levels of nesting. -/
def readNested : Nat → Text → Option (Item × Text)
  | 0 => readItem none
  | depth + 1 => readItem (some (readNested depth))

namespace Item

/-- The item at the start of some bytes, and the bytes after it. -/
def read (s : Text) : Option (Item × Text) := readTagged (readNested maxNesting) s

/-- The item that some bytes are. -/
def ofBytes? (s : Text) : Option Item :=
  match read s with
  | some (item, []) => some item
  | _ => none

/-! ## Values -/

/-- The bytes as a number, the highest first. -/
def numberOf (bytes : Text) : Nat := bytes.foldl (fun acc b => acc * 256 + b.toNat) 0

/-- Whether an item can stand after a tag that has a fixed meaning. -/
def fitsTag (tag : Nat) (item : Item) : Bool :=
  match tag, item with
  | 0, .text _ => true
  | 0, _ => false
  | 1, .unsigned _ | 1, .negative _ | 1, .half _ | 1, .single _ | 1, .double _ => true
  | 1, _ => false
  | 2, .bytes _ | 3, .bytes _ => true
  | 2, _ | 3, _ => false
  | _, _ => true

/-- The item without its tags. A tag for large numbers turns bytes into a number. -/
def untagged : Item → Option Item
  | .tagged tag item =>
    if !fitsTag tag item then none
    else
      match tag, item with
      | 2, .bytes pieces => some (.unsigned (numberOf pieces.flatten))
      | 3, .bytes pieces => some (.negative (numberOf pieces.flatten))
      | _, _ => untagged item
  | item => some item

def isNull : Item → Bool
  | .simple n => n == nullNumber || n == undefinedNumber
  | _ => false

/-- The value of an item under its tags; null stands for `zero`. -/
def value? {α : Type} (zero : α) (get : Item → Option α) (item : Item) : Option α :=
  item.untagged.bind fun item => if item.isNull then some zero else get item

def integer? : Item → Option Int
  | .unsigned n => some n
  | .negative n => some (-1 - n)
  | .simple n => if n = falseNumber ∨ n = trueNumber then none else some n
  | _ => none

/-- A natural number below a bound. -/
def asNat? (bound : Nat) : Item → Option Nat :=
  value? 0 fun item =>
    item.integer?.bind fun n => if 0 ≤ n ∧ n < bound then some n.toNat else none

/-- An integer of 64 bits. -/
def asInt? : Item → Option Int :=
  value? 0 fun item =>
    item.integer?.filter fun n => decide (-2 ^ (63 : Nat) ≤ n ∧ n < 2 ^ (63 : Nat))

def asBool? : Item → Option Bool :=
  value? false fun item =>
    match item with
    | .simple n => if n = trueNumber then some true else if n = falseNumber then some false else none
    | _ => none

def asFloat? : Item → Option Float :=
  value? 0 fun item =>
    match item with
    | .half bits => some (Format.half.widen bits)
    | .single bits => some (Format.single.widen bits)
    | .double bits => some (Format.double.widen bits)
    | item =>
      item.integer?.bind fun n =>
        if -2 ^ (63 : Nat) ≤ n ∧ n < 2 ^ (64 : Nat) then some (Binary.ofInt n) else none

/-- A text, every piece of which has to be UTF-8. -/
def asText? : Item → Option Text :=
  value? [] fun item =>
    match item with
    | .text pieces => if pieces.all Text.isValid then some pieces.flatten else none
    | _ => none

/-- The values of a sequence. -/
def asList? {α : Type} (get : Item → Option α) : Item → Option (List α) :=
  value? [] fun item =>
    match item with
    | .array items => items.mapM get
    | _ => none

/-- The entries of a record: a map whose keys are numbers or texts. -/
def asRecord? : Item → Option (List (Item × Item)) :=
  value? [] fun item =>
    match item with
    | .map entries =>
      if entries.all fun (key, _) =>
        match key with
        | .unsigned _ | .negative _ => true
        | .text pieces => pieces.all Text.isValid
        | _ => false
      then some entries else none
    | _ => none

def isKey (field : Nat) : Item → Bool
  | .unsigned n => n == field
  | .text pieces => pieces.flatten == Text.ofNat field
  | _ => false

/-- The value of a field of a record: that of its first entry, or `zero` when there is none. -/
def field? {α : Type} (entries : List (Item × Item)) (field : Nat) (zero : α)
    (get : Item → Option α) : Option α :=
  match entries.find? fun (key, _) => isKey field key with
  | none => some zero
  | some (_, item) => get item

end Item
end Bareword.Cbor
