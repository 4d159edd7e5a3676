import Bareword.Decimal.Binary
import Bareword.Text.Basic

/-! # Reading numbers

A number is written in decimal or, after `0x`, in hexadecimal with a binary exponent; underscores
may stand between digits, and `inf`, `infinity` and `nan` are numbers too. The value read is the one
nearest to what is written.
-/

namespace Bareword.Decimal
set_option autoImplicit false
-- Powers are those of the core library, whatever instances are imported later.
attribute [local instance (high)] instPowNat

/-- What a written number stands for. -/
inductive Reading where
  /-- The nearest number. -/
  | exact (x : Float)
  /-- The number written is too large; the answer is an infinity. -/
  | overflow (x : Float)
  /-- The text is no number. -/
  | malformed

def lowerByte (b : UInt8) : UInt8 := if Text.byte 'A' ≤ b ∧ b ≤ Text.byte 'Z' then b + 32 else b

/-- The value of a digit in a base of at most sixteen. -/
def digit? (base : Nat) (b : UInt8) : Option Nat :=
  (Text.hexDigit? b).filter (· < base)

/-- The digits of a mantissa: their value, how many stand after the point, whether there is a point
and whether there are digits; then what follows. -/
structure Mantissa where
  value : Nat := 0
  fractionDigits : Nat := 0
  sawPoint : Bool := false
  sawDigits : Bool := false

/-- Reads a mantissa. Underscores are skipped here. -/
def readMantissa (base : Nat) : Mantissa → Text → Mantissa × Text
  | acc, [] => (acc, [])
  | acc, b :: rest =>
    if b = Text.byte '_' then readMantissa base acc rest
    else if b = Text.byte '.' then
      if acc.sawPoint then (acc, b :: rest)
      else readMantissa base { acc with sawPoint := true } rest
    else
      match digit? base b with
      | none => (acc, b :: rest)
      | some d =>
        readMantissa base
          { acc with
            value := acc.value * base + d
            sawDigits := true
            fractionDigits := if acc.sawPoint then acc.fractionDigits + 1 else 0 } rest

/-- Reads the digits of an exponent; past a hundred thousand more digits make no difference. -/
def readExponent : Nat → Text → Nat × Text
  | acc, [] => (acc, [])
  | acc, b :: rest =>
    if b = Text.byte '_' then readExponent acc rest
    else if Text.isDigit b then
      readExponent (if acc < 10000 then acc * 10 + (b.toNat - 48) else acc) rest
    else (acc, b :: rest)

/-- The kind of the last character seen while underscores are checked. -/
inductive Seen where
  | start
  | digit
  | underscore
  | other
  deriving DecidableEq

/-- Whether every underscore stands between digits. -/
def underscoresFit (hex : Bool) : Seen → Text → Bool
  | seen, [] => seen != .underscore
  | seen, b :: rest =>
    if (digit? (if hex then 16 else 10) b).isSome then underscoresFit hex .digit rest
    else if b = Text.byte '_' then seen == .digit && underscoresFit hex .underscore rest
    else seen != .underscore && underscoresFit hex .other rest

/-- Whether a text, without its sign, starts with the mark of a base. -/
def baseMark (marks : List Char) (t : Text) : Bool :=
  match t with
  | z :: m :: _ => z == Text.byte '0' && marks.any fun c => lowerByte m == Text.byte c
  | _ => false

/-- Whether the underscores of a number without its sign are allowed. -/
def underscoresOk (t : Text) : Bool :=
  if baseMark ['b', 'o', 'x'] t then underscoresFit (baseMark ['x'] t) .digit (t.drop 2)
  else underscoresFit false .start t

/-- The number with a sign that is nearest to `value * 10 ^ e`. Very small and very large values are
recognized by their number of digits. -/
def decimalReading (negative : Bool) (value : Nat) (e : Int) : Reading :=
  if value = 0 then .exact (Binary.signed negative 0)
  else
    let size := ((Nat.toDigits 10 value).length : Int) + e
    let bits :=
      if size > 310 then Binary.infinityBits
      else if size < -330 then 0
      else if e < 0 then Binary.nearest value (10 ^ e.natAbs)
      else Binary.nearest (value * 10 ^ e.natAbs) 1
    let x := Binary.signed negative bits
    if bits = Binary.infinityBits then .overflow x else .exact x

/-- The number with a sign that is nearest to `value * 2 ^ e`. -/
def hexReading (negative : Bool) (value : Nat) (e : Int) : Reading :=
  let bits :=
    if e < 0 then Binary.nearest value (2 ^ e.natAbs)
    else Binary.nearest (value * 2 ^ e.natAbs) 1
  let x := Binary.signed negative bits
  if bits = Binary.infinityBits then .overflow x else .exact x

/-- Reads digits, a fraction and an exponent. -/
def readDigits (negative : Bool) (t : Text) : Reading :=
  let hex := baseMark ['x'] t && 2 < t.length
  let base := if hex then 16 else 10
  let (m, rest) := readMantissa base {} (if hex then t.drop 2 else t)
  let finish (e : Int) : Reading :=
    if t.contains (Text.byte '_') && !underscoresOk t then .malformed
    else if hex then hexReading negative m.value (e - 4 * m.fractionDigits)
    else decimalReading negative m.value (e - m.fractionDigits)
  if !m.sawDigits then .malformed
  else
    match rest with
    | [] => if hex then .malformed else finish 0
    | b :: rest =>
      if lowerByte b ≠ Text.byte (if hex then 'p' else 'e') then .malformed
      else
        let (minus, digits) :=
          match rest with
          | s :: tail =>
            if s = Text.byte '+' then (false, tail)
            else if s = Text.byte '-' then (true, tail)
            else (false, rest)
          | [] => (false, [])
        match digits with
        | [] => .malformed
        | d :: _ =>
          if !Text.isDigit d then .malformed
          else
            match readExponent 0 digits with
            | (e, []) => finish (if minus then -(e : Int) else e)
            | _ => .malformed

def read (t : Text) : Reading :=
  let lower := t.map lowerByte
  let (negative, body) :=
    match t with
    | s :: tail =>
      if s = Text.byte '+' then (false, tail)
      else if s = Text.byte '-' then (true, tail)
      else (false, t)
    | [] => (false, [])
  let lowerBody := body.map lowerByte
  if lower == Text.ofString "nan" then .exact (0.0 / 0.0)
  else if lowerBody == Text.ofString "inf" || lowerBody == Text.ofString "infinity" then
    .exact (Binary.signed negative Binary.infinityBits)
  else readDigits negative body

/-- The number that a text stands for, infinite if it is too large. -/
def read? (t : Text) : Option Float :=
  match read t with
  | .exact x | .overflow x => some x
  | .malformed => none

end Bareword.Decimal
