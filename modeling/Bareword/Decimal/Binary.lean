/-! # Binary fractions

The numbers of the language are 64-bit floating point numbers. Here they are taken apart into a
sign, an integer and a power of two, and put together from a quotient of natural numbers.

* `Binary.parts`: the parts of a number.
* `Binary.nearest`: the bits of the number nearest to a quotient, a tie going to the even one.
-/

namespace Bareword.Binary
set_option autoImplicit false
-- Powers are those of the core library, whatever instances are imported later.
attribute [local instance (high)] instPowNat

/-- The parts of a number: a finite one is `mantissa * 2 ^ exponent` with a sign. -/
inductive Parts where
  | nan
  | infinite (negative : Bool)
  | finite (negative : Bool) (mantissa : Nat) (exponent : Int)
  deriving DecidableEq, Repr

/-- The number of bits of a mantissa that are stored. -/
def mantissaBits : Nat := 52

def minExponent : Int := -1074

def maxExponent : Int := 971

def infinityBits : Nat := 0x7FF0000000000000

def signBit : Nat := 2 ^ (63 : Nat)

/-- The parts that some bits stand for. -/
def partsOfBits (bits : Nat) : Parts :=
  let negative := bits / signBit % 2 = 1
  let raw := bits / 2 ^ mantissaBits % 2048
  let fraction := bits % 2 ^ mantissaBits
  if raw = 2047 then if fraction = 0 then .infinite negative else .nan
  else if raw = 0 then .finite negative fraction minExponent
  else .finite negative (2 ^ mantissaBits + fraction) (raw + minExponent - 1)

def parts (x : Float) : Parts := partsOfBits x.toBits.toNat

/-- The quotient rounded to the nearest integer, a tie going to the even one. -/
def roundedQuotient (num den : Nat) : Nat :=
  let q := num / den
  let r := num % den
  if 2 * r < den then q
  else if 2 * r > den then q + 1
  else if q % 2 = 0 then q else q + 1

/-- `num / den / 2 ^ e` as a quotient of natural numbers. -/
def scaled (num den : Nat) (e : Int) : Nat × Nat :=
  if e < 0 then (num * 2 ^ e.natAbs, den) else (num, den * 2 ^ e.natAbs)

/-- The exponent for which the quotient has as many bits as a mantissa, as far as the smallest
exponent allows. -/
def exponentOf (num den : Nat) : Int :=
  let guess : Int := (num.log2 : Int) - den.log2 - mantissaBits
  let (n, d) := scaled num den guess
  let e := if n / d < 2 ^ mantissaBits then guess - 1 else guess
  max e minExponent

/-- The bits of the number nearest to `num / den`; too large a quotient gives infinity. -/
def nearest (num den : Nat) : Nat :=
  if num = 0 ∨ den = 0 then 0
  else
    let e := exponentOf num den
    let (n, d) := scaled num den e
    let q := roundedQuotient n d
    let (q, e) := if q = 2 ^ (mantissaBits + 1) then (2 ^ mantissaBits, e + 1) else (q, e)
    if e > maxExponent then infinityBits
    else if q < 2 ^ mantissaBits then q
    else (e - minExponent + 1).toNat * 2 ^ mantissaBits + (q - 2 ^ mantissaBits)

/-- The number with some bits and a sign. -/
def signed (negative : Bool) (bits : Nat) : Float :=
  Float.ofBits (if negative then bits + signBit else bits).toUInt64

/-- Whether a number is finite and has no fraction. -/
def isIntegral (x : Float) : Bool :=
  match parts x with
  | .finite _ m q => 0 ≤ q || m % 2 ^ q.natAbs == 0
  | _ => false

/-- The absolute value of a number without a fraction. -/
def integerPart (m : Nat) (q : Int) : Nat := if q < 0 then m / 2 ^ q.natAbs else m * 2 ^ q.natAbs

/-- The number nearest to an integer. -/
def ofInt (n : Int) : Float := signed (n < 0) (nearest n.natAbs 1)

end Bareword.Binary
