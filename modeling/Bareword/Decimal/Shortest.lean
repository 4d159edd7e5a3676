import Bareword.Decimal.Binary

/-! # Shortest decimals

The fewest decimal digits that read back as a given number, and of those the nearest. A number is
read back from every decimal in the interval of reals that round to it; the ends of the interval
belong to it when the mantissa is even. For each number of digits, from one up, the two decimals
next to the number are tried.
-/

namespace Bareword
set_option autoImplicit false
-- Powers are those of the core library, whatever instances are imported later.
attribute [local instance (high)] instPowNat

/-- The decimal `digits * 10 ^ exponent`. -/
structure Decimal where
  digits : Nat
  exponent : Int
  deriving DecidableEq, Repr, Inhabited

namespace Decimal

/-- The numerator and denominator of `m * 2 ^ q / 10 ^ k`, in quarters: four times the value. -/
def onGrid (m : Nat) (q k : Int) : Nat × Nat :=
  (m * 2 ^ q.toNat * 10 ^ (-k).toNat, 2 ^ (-q).toNat * 10 ^ k.toNat)

/-- Whether `digits` on the grid of `10 ^ k` rounds to the number with mantissa `m` and exponent
`q`. All sides are multiplied by four, as the lower end may lie a quarter below. -/
def readsBack (m : Nat) (q k : Int) (digits : Nat) : Bool :=
  let lowGap := if m = 2 ^ Binary.mantissaBits ∧ q > Binary.minExponent then 1 else 2
  let (num, den) := onGrid 1 q k
  let low := (4 * m - lowGap) * num
  let high := (4 * m + 2) * num
  let here := 4 * digits * den
  if m % 2 = 0 then low ≤ here && here ≤ high else low < here && here < high

/-- The decimal next to the number on the grid of `10 ^ k` that reads back, if there is one; of two
the nearer one, and of two that are equally near the even one. -/
def onGrid? (m : Nat) (q k : Int) : Option Decimal :=
  let (num, den) := onGrid m q k
  let down := num / den
  let gap := 2 * (num % den)
  let nearerDown := gap < den ∨ (gap = den ∧ down % 2 = 0)
  match readsBack m q k down, readsBack m q k (down + 1) with
  | true, true => some ⟨if nearerDown then down else down + 1, k⟩
  | true, false => some ⟨down, k⟩
  | false, true => some ⟨down + 1, k⟩
  | false, false => none

def digitCount (n : Nat) : Nat := (Nat.toDigits 10 n).length

/-- The exponent of the first decimal digit of `m * 2 ^ q`. -/
def leadingExponent (m : Nat) (q : Int) : Int :=
  let (num, den) := onGrid m q 0
  if den ≤ num then digitCount (num / den) - 1
  else
    -- One less than zero for each power of ten that is needed to reach one.
    let k := digitCount (den / num)
    if num * 10 ^ (k - 1) ≥ den then -((k : Int) - 1) else -(k : Int)

/-- Drops trailing zeros, at most `fuel` of them. -/
def dropZeros : Nat → Decimal → Decimal
  | 0, d => d
  | fuel + 1, d =>
    if d.digits ≠ 0 ∧ d.digits % 10 = 0 then dropZeros fuel ⟨d.digits / 10, d.exponent + 1⟩ else d

/-- The shortest decimal for a positive number, trying `n`, `n + 1`, and so on digits. -/
def shortestFrom (m : Nat) (q lead : Int) : Nat → Nat → Decimal
  | 0, _ => ⟨0, 0⟩
  | fuel + 1, n =>
    match onGrid? m q (lead - n + 1) with
    | some d => d
    | none => shortestFrom m q lead fuel (n + 1)

/-- The shortest decimal that reads back as `m * 2 ^ q`, without trailing zeros. -/
def shortest (m : Nat) (q : Int) : Decimal :=
  if m = 0 then ⟨0, 0⟩ else dropZeros 20 (shortestFrom m q (leadingExponent m q) 17 1)

end Decimal
end Bareword
