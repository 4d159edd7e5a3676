/-! # Texts

A text is a list of bytes. Programs are texts, and so are names, string values and messages; a
text is UTF-8 by convention only, so nothing here assumes that it decodes.

* `Text.ofString`: the bytes of a Lean string, also a coercion.
* `Text.slice`: the bytes between two offsets, empty when the offsets do not fit.
* `Text.find?`, `Text.findLast?`: offsets of the first and the last occurrence of a text.
* `Text.splitOn`, `Text.join`: cutting at a byte and joining with a separator.
* `Text.decimal`, `Text.hex`: the digits of a number.
-/

namespace Bareword
set_option autoImplicit false

/-- A text is a sequence of bytes. -/
abbrev Text := List UInt8

namespace Text

/-- The UTF-8 bytes of a string. -/
def ofString (s : String) : Text := s.toList.flatMap String.utf8EncodeChar

instance : Coe String Text := ⟨ofString⟩

/-- The byte of an ASCII character. -/
abbrev byte (c : Char) : UInt8 := c.toNat.toUInt8

/-! ## Slices and searches -/

/-- The bytes from `start` up to `stop`. -/
def extract (t : Text) (start stop : Nat) : Text := (t.drop start).take (stop - start)

/-- The bytes between two offsets, or nothing when they are not a range of the text. -/
def slice (t : Text) (start stop : Int) : Text :=
  if start < 0 ∨ stop > t.length ∨ start > stop then [] else t.extract start.toNat stop.toNat

/-- The offset of the first occurrence of `pat`. -/
def find? (pat : Text) : Text → Option Nat
  | [] => if pat.isEmpty then some 0 else none
  | b :: rest =>
    if pat.isPrefixOf (b :: rest) then some 0 else (find? pat rest).map (· + 1)

/-- The offset of the last occurrence of `pat`. -/
def findLast? (pat : Text) : Text → Option Nat
  | [] => if pat.isEmpty then some 0 else none
  | b :: rest =>
    match findLast? pat rest with
    | some n => some (n + 1)
    | none => if pat.isPrefixOf (b :: rest) then some 0 else none

/-- Drops `lead` from the front when it stands there. -/
def dropLead (lead t : Text) : Text := if lead.isPrefixOf t then t.drop lead.length else t

/-- Drops `tail` from the end when it stands there. -/
def dropTail (tail t : Text) : Text :=
  if tail.isSuffixOf t then t.take (t.length - tail.length) else t

/-- Drops from the end the bytes that satisfy `p`. -/
def trimEnd (p : UInt8 → Bool) (t : Text) : Text := (t.reverse.dropWhile p).reverse

/-! ## Cutting and joining -/

/-- Cuts at every occurrence of the byte `sep`; there is always at least one piece. -/
def splitOn (sep : UInt8) : Text → List Text
  | [] => [[]]
  | b :: rest =>
    match splitOn sep rest with
    | [] => [[b]]
    | piece :: pieces => if b = sep then [] :: piece :: pieces else (b :: piece) :: pieces

/-- Joins the pieces with `sep` between them. -/
def join (sep : Text) : List Text → Text
  | [] => []
  | [piece] => piece
  | piece :: pieces => piece ++ sep ++ join sep pieces

def times (n : Nat) (t : Text) : Text := (List.replicate n t).flatten

def spaces (n : Nat) : Text := List.replicate n (byte ' ')

/-- Pads on the left to at least `n` bytes. -/
def padLeft (n : Nat) (t : Text) : Text := spaces (n - t.length) ++ t

/-! ## Digits -/

def ofNat (n : Nat) : Text := (Nat.toDigits 10 n).map byte

/-- The decimal digits of an integer, with a minus sign in front of a negative one. -/
def decimal (n : Int) : Text :=
  if n < 0 then byte '-' :: ofNat n.natAbs else ofNat n.natAbs

/-- The hexadecimal digits of a number, lower case, padded with zeros to `width`. -/
def hex (width n : Nat) : Text :=
  let digits : Text := (Nat.toDigits 16 n).map byte
  List.replicate (width - digits.length) (byte '0') ++ digits

def hexDigit? (b : UInt8) : Option Nat :=
  if byte '0' ≤ b ∧ b ≤ byte '9' then some (b.toNat - 48)
  else if byte 'a' ≤ b ∧ b ≤ byte 'f' then some (b.toNat - 87)
  else if byte 'A' ≤ b ∧ b ≤ byte 'F' then some (b.toNat - 55)
  else none

/-- Every byte of a text as two hexadecimal digits. -/
def toHex (t : Text) : Text := t.flatMap fun b => hex 2 b.toNat

/-- Reads a text written as two hexadecimal digits a byte. -/
def ofHex? : Text → Option Text
  | [] => some []
  | [_] => none
  | a :: b :: rest => do
    let hi ← hexDigit? a
    let lo ← hexDigit? b
    let tail ← ofHex? rest
    return (hi * 16 + lo).toUInt8 :: tail

def isDigit (b : UInt8) : Bool := byte '0' ≤ b && b ≤ byte '9'

/-! ## Order -/

/-- Compares texts byte by byte; a text comes before its extensions. -/
def cmp : Text → Text → Ordering
  | [], [] => .eq
  | [], _ :: _ => .lt
  | _ :: _, [] => .gt
  | a :: as, b :: bs => if a < b then .lt else if b < a then .gt else cmp as bs

/-- Whether the first text comes before the second. -/
def before (a b : Text) : Bool := cmp a b == .lt

/-- Inserts a text into a sorted list, before the first entry that is not smaller. -/
def insertSorted (t : Text) : List Text → List Text
  | [] => [t]
  | u :: us => if before u t then u :: insertSorted t us else t :: u :: us

def sort (ts : List Text) : List Text := ts.foldr insertSorted []

end Text
end Bareword
