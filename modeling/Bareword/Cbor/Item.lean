import Bareword.Cbor.Fraction
import Bareword.Text.Basic

/-! # Data items

A binary notation for data: numbers, texts, sequences and maps, each written as a head that says
what follows and how much of it.

* `Item`: a data item.
* `Item.ofInt`, `Item.ofFloat`, `Item.ofText`: the shortest item of a value.
* `Item.encode`: an item as bytes.
-/

namespace Bareword.Cbor
set_option autoImplicit false
-- Powers are those of the core library, whatever instances are imported later.
attribute [local instance (high)] instPowNat

/-- A data item. Strings of bytes and texts may be written in several pieces. -/
inductive Item where
  | unsigned (n : Nat)
  /-- The number `-1 - n`. -/
  | negative (n : Nat)
  | bytes (pieces : List Text)
  | text (pieces : List Text)
  | array (items : List Item)
  | map (entries : List (Item × Item))
  | tagged (tag : Nat) (item : Item)
  /-- A value that has only a number. -/
  | simple (n : Nat)
  /-- Floating point numbers of two, four and eight bytes, by their bits. -/
  | half (bits : Nat)
  | single (bits : Nat)
  | double (bits : Nat)
  deriving Repr, Inhabited

namespace Item

/-! ## Items of values -/

/-- The numbers of the simple values. -/
def falseNumber : Nat := 20
def trueNumber : Nat := 21
def nullNumber : Nat := 22
def undefinedNumber : Nat := 23

def ofBool (b : Bool) : Item := .simple (if b then trueNumber else falseNumber)

def ofInt (n : Int) : Item := if n < 0 then .negative (-1 - n).toNat else .unsigned n.toNat

def ofText (t : Text) : Item := .text [t]

def ofTexts (ts : List Text) : Item := .array (ts.map ofText)

/-- The narrowest item of a number. -/
def ofFloat (x : Float) : Item :=
  match Format.half.narrow? x with
  | some bits => .half bits
  | none =>
    match Format.single.narrow? x with
    | some bits => .single bits
    | none => .double ((Format.double.narrow? x).getD 0)

/-! ## Writing -/

/-- The `n` bytes of a number, the highest first. -/
def bigEndian : Nat → Nat → Text
  | 0, _ => []
  | n + 1, value => bigEndian n (value / 256) ++ [(value % 256).toUInt8]

/-- The head of an item of a major type with an argument, in its shortest form. -/
def head (major n : Nat) : Text :=
  let lead (info : Nat) : UInt8 := (major * 32 + info).toUInt8
  if n < 24 then [lead n]
  else if n < 2 ^ (8 : Nat) then lead 24 :: bigEndian 1 n
  else if n < 2 ^ (16 : Nat) then lead 25 :: bigEndian 2 n
  else if n < 2 ^ (32 : Nat) then lead 26 :: bigEndian 4 n
  else lead 27 :: bigEndian 8 n

/-- The byte that ends a sequence of unknown length. -/
def breakByte : UInt8 := 0xFF

/-- A string in pieces: one piece stands by itself, several between an opening and a break. -/
def encodePieces (major : Nat) : List Text → Text
  | [piece] => head major piece.length ++ piece
  | pieces =>
    (major * 32 + 31).toUInt8 ::
      pieces.flatMap (fun piece => head major piece.length ++ piece) ++ [breakByte]

def encode : Item → Text
  | .unsigned n => head 0 n
  | .negative n => head 1 n
  | .bytes pieces => encodePieces 2 pieces
  | .text pieces => encodePieces 3 pieces
  | .array items => head 4 items.length ++ encodeItems items
  | .map entries => head 5 entries.length ++ encodeEntries entries
  | .tagged tag item => head 6 tag ++ encode item
  | .simple n => head 7 n
  | .half bits => 0xF9 :: bigEndian 2 bits
  | .single bits => 0xFA :: bigEndian 4 bits
  | .double bits => 0xFB :: bigEndian 8 bits
where
  /-- Items one after the other. -/
  encodeItems : List Item → Text
    | [] => []
    | item :: rest => encode item ++ encodeItems rest
  /-- Keys and values, each key before its value. -/
  encodeEntries : List (Item × Item) → Text
    | [] => []
    | (key, value) :: rest => encode key ++ encode value ++ encodeEntries rest

end Item
end Bareword.Cbor
