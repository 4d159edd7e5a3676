import Bareword.Decimal.Binary

/-! # Floating point numbers of several widths

A number is stored in the narrowest of three formats that keeps its value.

* `Format.half`, `Format.single`, `Format.double`: the formats.
* `Format.narrow?`: the bits of a number in a format, if the format has it.
* `Format.widen`: the number that some bits of a format stand for.
-/

namespace Bareword.Cbor
set_option autoImplicit false
-- Powers are those of the core library, whatever instances are imported later.
attribute [local instance (high)] instPowNat

/-- A binary floating point format: the number of fraction bits, the number of exponent bits and
the bias of the exponent. -/
structure Format where
  fractionBits : Nat
  exponentBits : Nat
  bias : Nat
  deriving DecidableEq, Repr

namespace Format

def half : Format := ⟨10, 5, 15⟩

def single : Format := ⟨23, 8, 127⟩

def double : Format := ⟨52, 11, 1023⟩

def signBit (f : Format) : Nat := 2 ^ (f.fractionBits + f.exponentBits)

def infinity (f : Format) : Nat := (2 ^ f.exponentBits - 1) * 2 ^ f.fractionBits

/-- The bits of the number that is no number. -/
def quiet (f : Format) : Nat := f.infinity + 2 ^ (f.fractionBits - 1)

/-- The exponent of the smallest numbers. -/
def minExponent (f : Format) : Int := 1 - (f.bias : Int) - f.fractionBits

/-- The largest exponent of a mantissa. -/
def maxExponent (f : Format) : Int := (f.bias : Int) - f.fractionBits

/-- The bits of `m * 2 ^ q`, if the format has that number. -/
def magnitude? (f : Format) (m : Nat) (q : Int) : Option Nat :=
  if m = 0 then some 0
  else
    let e := max (q + m.log2 - f.fractionBits) f.minExponent
    let shift := q - e
    let n := if 0 ≤ shift then m * 2 ^ shift.toNat else m / 2 ^ shift.natAbs
    let isExact := decide (0 ≤ shift) || m % 2 ^ shift.natAbs == 0
    if !isExact || e > f.maxExponent then none
    else if n < 2 ^ f.fractionBits then some n
    else some ((e - f.minExponent + 1).toNat * 2 ^ f.fractionBits + (n - 2 ^ f.fractionBits))

/-- The bits of a number, if the format has it. -/
def narrow? (f : Format) (x : Float) : Option Nat :=
  let sign (negative : Bool) : Nat := if negative then f.signBit else 0
  match Binary.parts x with
  | .nan => some f.quiet
  | .infinite negative => some (sign negative + f.infinity)
  | .finite negative m q => (f.magnitude? m q).map (sign negative + ·)

/-- The number that some bits stand for. -/
def widen (f : Format) (bits : Nat) : Float :=
  let negative := bits / f.signBit % 2 = 1
  let raw := bits / 2 ^ f.fractionBits % 2 ^ f.exponentBits
  let fraction := bits % 2 ^ f.fractionBits
  if raw = 2 ^ f.exponentBits - 1 then
    if fraction = 0 then Binary.signed negative Binary.infinityBits
    else Float.ofBits 0x7FF8000000000001
  else
    let m := if raw = 0 then fraction else 2 ^ f.fractionBits + fraction
    let q : Int := f.minExponent + (raw - 1 : Nat)
    Binary.signed negative
      (if q < 0 then Binary.nearest m (2 ^ q.natAbs) else Binary.nearest (m * 2 ^ q.natAbs) 1)

end Format
end Bareword.Cbor
