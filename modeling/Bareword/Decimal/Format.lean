import Bareword.Decimal.Shortest
import Bareword.Text.Basic

/-! # Numbers as text

Layouts of shortest decimals. A layout says for which exponents of the first digit a number is
written with an exponent, and how many digits the exponent has at least.

* `Layout.general`: with an exponent below `1e-4` and from `1e6` on.
* `Layout.positional`: never with an exponent.
* `number`: integers below `1e15` by their digits, all other numbers in the general layout.
-/

namespace Bareword.Decimal
set_option autoImplicit false
-- Powers are those of the core library, whatever instances are imported later.
attribute [local instance (high)] instPowNat

/-- How a number is written. -/
structure Layout where
  /-- Whether an exponent is written when the first digit has this one. -/
  useExponent : Int → Bool
  /-- The least number of digits of an exponent. -/
  exponentDigits : Nat

namespace Layout

/-- With an exponent below `1e-4` and from `1e6` on. -/
def general : Layout := ⟨fun e => e < -4 || 6 ≤ e, 2⟩

/-- Never with an exponent. -/
def positional : Layout := ⟨fun _ => false, 2⟩

/-- With an exponent below `1e-6` and from `1e21` on; exponents have no leading zeros. -/
def interchange : Layout := ⟨fun e => e < -6 || 21 ≤ e, 1⟩

/-- Digits with a point after the first one, and an exponent. -/
def scientific (layout : Layout) (digits : Text) (e : Int) : Text :=
  let fraction := digits.drop 1
  let mark : Text := if e < 0 then "e-" else "e+"
  let exponent := Text.ofNat e.natAbs
  digits.take 1 ++ (if fraction.isEmpty then [] else Text.byte '.' :: fraction) ++ mark ++
    List.replicate (layout.exponentDigits - exponent.length) (Text.byte '0') ++ exponent

/-- Digits with a point where it belongs; `e` is the exponent of the first digit. -/
def plain (digits : Text) (e : Int) : Text :=
  if e < 0 then "0." ++ List.replicate (e.natAbs - 1) (Text.byte '0') ++ digits
  else
    let whole := digits.take (e.toNat + 1)
    let fraction := digits.drop (e.toNat + 1)
    whole ++ List.replicate (e.toNat + 1 - whole.length) (Text.byte '0') ++
      (if fraction.isEmpty then [] else Text.byte '.' :: fraction)

/-- A positive decimal in a layout. -/
def decimal (layout : Layout) (d : Decimal) : Text :=
  let digits := Text.ofNat d.digits
  let e := d.exponent + digits.length - 1
  if layout.useExponent e then layout.scientific digits e else plain digits e

def render (layout : Layout) (x : Float) : Text :=
  match Binary.parts x with
  | .nan => "NaN"
  | .infinite negative => if negative then "-Inf" else "+Inf"
  | .finite negative m q =>
    let digits : Text := if m = 0 then "0" else layout.decimal (shortest m q)
    if negative then Text.byte '-' :: digits else digits

end Layout

def general (x : Float) : Text := Layout.general.render x

/-- A number as programs show it: integers below `1e15` by their digits. -/
def number (x : Float) : Text :=
  match Binary.parts x with
  | .finite _ m q =>
    if Binary.isIntegral x && Binary.integerPart m q < 10 ^ (15 : Nat) then Layout.positional.render x
    else Layout.general.render x
  | _ => Layout.general.render x

end Bareword.Decimal
