import Mathlib
import Bareword.Cbor.Item
import Bareword.Cbor.Read

/-! # Numbers of several widths are read back

A finite number is `m * 2 ^ q` in one way only once `m` fills its format or `q` is as small as the
format allows. Narrowing a number keeps its value, and so does reading the bits of a format; as the
value settles the bits, a number that is written and read is the number it was.

* `Format.Canonical`: the mantissas and exponents that a format stores.
* `Format.pack`: the bits a format stores them with.
* `Item.asFloat?_ofFloat`: the item of a number holds that number.
-/

namespace Bareword.Cbor
set_option autoImplicit false

def dyadic (m : Nat) (q : Int) : ℚ := m * 2 ^ q

theorem two_zpow_pos (q : Int) : (0 : ℚ) < 2 ^ q := zpow_pos (by norm_num) q

theorem two_zpow_lt {a b : Int} : (2 : ℚ) ^ a < 2 ^ b ↔ a < b :=
  zpow_lt_zpow_iff_right₀ (by norm_num)

theorem two_zpow_add (a b : Int) : (2 : ℚ) ^ (a + b) = 2 ^ a * 2 ^ b :=
  zpow_add₀ (by norm_num) a b

theorem dyadic_pos {m : Nat} (hm : 0 < m) (q : Int) : 0 < dyadic m q :=
  mul_pos (by exact_mod_cast hm) (two_zpow_pos q)

/-- A number reaches a power of two when its mantissa has that many bits. -/
theorem two_zpow_le_dyadic {m b : Nat} {q : Int} : (2 : ℚ) ^ (q + b) ≤ dyadic m q ↔ 2 ^ b ≤ m := by
  rw [two_zpow_add, mul_comm, dyadic, zpow_natCast, mul_le_mul_iff_left₀ (two_zpow_pos q)]
  exact_mod_cast Iff.rfl

theorem dyadic_lt_two_zpow {m b : Nat} {q : Int} : dyadic m q < 2 ^ (q + b) ↔ m < 2 ^ b := by
  rw [← not_le, two_zpow_le_dyadic, not_le]

theorem dyadic_add (m s : Nat) (q : Int) : dyadic (m * 2 ^ s) q = dyadic m (q + s) := by
  rw [dyadic, dyadic, two_zpow_add, zpow_natCast]
  push_cast
  ring

/-- The power of two under a number is settled by the number. -/
theorem exponent_unique {x : ℚ} {a b : Int} (ha : (2 : ℚ) ^ a ≤ x) (ha' : x < 2 ^ (a + 1))
    (hb : (2 : ℚ) ^ b ≤ x) (hb' : x < 2 ^ (b + 1)) : a = b := by
  have h1 : a < b + 1 := two_zpow_lt.mp (ha.trans_lt hb')
  have h2 : b < a + 1 := two_zpow_lt.mp (hb.trans_lt ha')
  omega

namespace Format

variable {f : Format}

/-- The mantissas and exponents that a format stores. -/
structure Canonical (f : Format) (m : Nat) (q : Int) : Prop where
  mantissa_lt : m < 2 ^ (f.fractionBits + 1)
  min_le : f.minExponent ≤ q
  le_max : q ≤ f.maxExponent
  full : 2 ^ f.fractionBits ≤ m ∨ q = f.minExponent

/-- The bits without a sign that stand for `m * 2 ^ q`. -/
def pack (f : Format) (m : Nat) (q : Int) : Nat :=
  if m < 2 ^ f.fractionBits then m
  else (q - f.minExponent + 1).toNat * 2 ^ f.fractionBits + (m - 2 ^ f.fractionBits)

def signed (f : Format) (negative : Bool) : Nat := if negative then f.signBit else 0

/-- The formats whose bias stands in the middle of the exponents. -/
structure Centred (f : Format) : Prop where
  bias_pos : 1 ≤ f.bias
  bias_eq : 2 * f.bias + 2 = 2 ^ f.exponentBits

theorem half_centred : half.Centred := ⟨by decide, rfl⟩
theorem single_centred : single.Centred := ⟨by decide, rfl⟩
theorem double_centred : double.Centred := ⟨by decide, rfl⟩

/-! ## Bits and what they stand for -/

theorem Centred.maxExponent_sub (hf : f.Centred) :
    f.maxExponent - f.minExponent + 3 = 2 ^ f.exponentBits := by
  have h : (2 * (f.bias : Int) + 2) = 2 ^ f.exponentBits := by exact_mod_cast hf.bias_eq
  rw [← h, maxExponent, minExponent]
  ring

theorem Canonical.fields {m : Nat} {q : Int} (h : f.Canonical m q) (hf : f.Centred) :
    ∃ raw fraction, f.pack m q = raw * 2 ^ f.fractionBits + fraction ∧
      fraction < 2 ^ f.fractionBits ∧ raw + 1 < 2 ^ f.exponentBits ∧
      (if raw = 0 then fraction else 2 ^ f.fractionBits + fraction) = m ∧
      f.minExponent + (raw - 1 : Nat) = q := by
  have hmax := hf.maxExponent_sub
  have h1 := h.mantissa_lt
  have h2 := h.min_le
  have h3 := h.le_max
  have hbias := hf.bias_eq
  have hexp : ((2 ^ f.exponentBits : Nat) : Int) = 2 ^ f.exponentBits := by norm_cast
  rw [pow_succ] at h1
  by_cases hm : m < 2 ^ f.fractionBits
  · have hq : q = f.minExponent := h.full.resolve_left (by omega)
    refine ⟨0, m, by simp [pack, hm], hm, by omega, by simp, by simp [hq]⟩
  · refine ⟨(q - f.minExponent + 1).toNat, m - 2 ^ f.fractionBits, by simp [pack, hm], by omega,
      by omega, ?_, by omega⟩
    rw [if_neg (by omega)]
    omega

theorem Canonical.pack_lt {m : Nat} {q : Int} (h : f.Canonical m q) (hf : f.Centred) :
    f.pack m q < f.infinity := by
  obtain ⟨raw, fraction, hpack, hfraction, hraw, -, -⟩ := h.fields hf
  have : (raw + 1) * 2 ^ f.fractionBits ≤ f.infinity :=
    Nat.mul_le_mul_right _ (by omega)
  rw [add_mul] at this
  omega

theorem infinity_lt (f : Format) : f.infinity < f.signBit := by
  rw [infinity, signBit, pow_add, mul_comm]
  exact Nat.mul_lt_mul_of_pos_left (by have := Nat.two_pow_pos f.exponentBits; omega)
    (Nat.two_pow_pos _)

theorem fields_signed (raw : Nat) {fraction : Nat} (negative : Bool)
    (hfraction : fraction < 2 ^ f.fractionBits) (hraw : raw < 2 ^ f.exponentBits) :
    let bits := f.signed negative + (raw * 2 ^ f.fractionBits + fraction)
    bits / f.signBit % 2 = negative.toNat ∧
      bits / 2 ^ f.fractionBits % 2 ^ f.exponentBits = raw ∧
      bits % 2 ^ f.fractionBits = fraction := by
  intro bits
  have hpos := Nat.two_pow_pos f.fractionBits
  have hbits : bits =
      (negative.toNat * 2 ^ f.exponentBits + raw) * 2 ^ f.fractionBits + fraction := by
    have hsign : f.signed negative = negative.toNat * 2 ^ f.exponentBits * 2 ^ f.fractionBits := by
      cases negative
      · simp [signed]
      · simp [signed, signBit, pow_add, mul_comm]
    rw [add_mul, ← hsign, add_assoc]
  have htop : bits / 2 ^ f.fractionBits = negative.toNat * 2 ^ f.exponentBits + raw := by
    rw [hbits, mul_comm, Nat.mul_add_div hpos, Nat.div_eq_of_lt hfraction, add_zero]
  refine ⟨?_, ?_, ?_⟩
  · rw [signBit, pow_add, ← Nat.div_div_eq_div_mul, htop, mul_comm,
      Nat.mul_add_div (Nat.two_pow_pos _), Nat.div_eq_of_lt hraw, add_zero]
    cases negative <;> rfl
  · rw [htop, mul_comm, Nat.mul_add_mod, Nat.mod_eq_of_lt hraw]
  · rw [hbits, mul_comm, Nat.mul_add_mod, Nat.mod_eq_of_lt hfraction]

/-! ## Narrowing keeps the value -/

/-- The exponent a format gives a number, and the mantissa that goes with it. -/
theorem canonical_of_dyadic {m n : Nat} {q e : Int} (hm : m ≠ 0)
    (he : e = max (q + m.log2 - f.fractionBits) f.minExponent) (hmax : e ≤ f.maxExponent)
    (hn : dyadic n e = dyadic m q) : f.Canonical n e := by
  have hlow : (2 : ℚ) ^ (q + m.log2) ≤ dyadic n e :=
    hn ▸ two_zpow_le_dyadic.mpr (Nat.log2_self_le hm)
  have hhigh : dyadic n e < 2 ^ (q + (m.log2 + 1 : Nat)) :=
    hn ▸ dyadic_lt_two_zpow.mpr Nat.lt_log2_self
  refine ⟨dyadic_lt_two_zpow.mp (hhigh.trans_le ?_), by omega, hmax, ?_⟩
  · exact zpow_le_zpow_right₀ (by norm_num) (by push_cast; omega)
  · rcases max_choice (q + m.log2 - f.fractionBits) f.minExponent with h | h
    · left
      rw [← two_zpow_le_dyadic (q := e), show e + f.fractionBits = q + m.log2 by omega]
      exact hlow
    · exact .inr (he.trans h)

/-- The bits of a number that a format has are packed from the same value. -/
theorem magnitude?_spec {m : Nat} {q : Int} {bits : Nat} (hf : f.Centred)
    (h : f.magnitude? m q = some bits) :
    ∃ n e, f.Canonical n e ∧ dyadic n e = dyadic m q ∧ bits = f.pack n e := by
  by_cases hm : m = 0
  · subst hm
    have := hf.bias_pos
    refine ⟨0, f.minExponent, ⟨Nat.two_pow_pos _, le_rfl, ?_, .inr rfl⟩, by simp [dyadic], ?_⟩
    · simp only [minExponent, maxExponent]
      omega
    · simpa [magnitude?, pack, eq_comm] using h
  · simp only [magnitude?, if_neg hm] at h
    generalize he : max (q + m.log2 - f.fractionBits) f.minExponent = e at h
    generalize hn : (if 0 ≤ q - e then m * 2 ^ (q - e).toNat else m / 2 ^ (q - e).natAbs) = n at h
    split at h
    · cases h
    rename_i hexact
    simp only [Bool.or_eq_true, decide_eq_true_eq, not_or, Bool.not_eq_true',
      Bool.or_eq_false_iff, decide_eq_false_iff_not, not_and, gt_iff_lt, not_lt] at hexact
    have hvalue : dyadic n e = dyadic m q := by
      by_cases hs : 0 ≤ q - e
      · rw [← hn, if_pos hs, dyadic_add, Int.toNat_of_nonneg hs]
        congr 1
        omega
      · have hmul : n * 2 ^ (q - e).natAbs = m := by
          rw [← hn, if_neg hs]
          refine Nat.div_mul_cancel (Nat.dvd_of_mod_eq_zero ?_)
          simpa [hs] using hexact.1 (by omega)
        rw [← hmul, dyadic_add]
        congr 1
        omega
    refine ⟨n, e, canonical_of_dyadic hm he.symm hexact.2 hvalue, hvalue, ?_⟩
    rw [pack]
    split at h <;> simp_all

/-- A number that a format stores is packed as it is. -/
theorem Canonical.magnitude? {m : Nat} {q : Int} (h : f.Canonical m q) :
    f.magnitude? m q = some (f.pack m q) := by
  by_cases hm : m = 0
  · simp [hm, Format.magnitude?, pack]
  · have hlog : m.log2 < f.fractionBits + 1 := (Nat.log2_lt hm).mpr h.mantissa_lt
    have he : max (q + m.log2 - f.fractionBits) f.minExponent = q := by
      have := h.min_le
      rcases h.full with hfull | hmin
      · have := (Nat.le_log2 hm).mpr hfull
        omega
      · omega
    simp only [Format.magnitude?, if_neg hm, he, sub_self, le_refl, if_true, Int.toNat_zero,
      pow_zero, mul_one, decide_true, Bool.true_or, Bool.not_true, Bool.false_or, decide_eq_true_eq,
      gt_iff_lt, not_lt.mpr h.le_max, if_false, pack]
    split <;> rfl

/-! ## The nearest number -/

theorem scaled_spec (num : Nat) {den : Nat} (hden : 0 < den) (e : Int) :
    0 < (Binary.scaled num den e).2 ∧
      ((Binary.scaled num den e).1 : ℚ) / (Binary.scaled num den e).2 = num / den / 2 ^ e := by
  have hden' : (den : ℚ) ≠ 0 := by positivity
  unfold Binary.scaled
  split
  · rename_i he
    obtain ⟨k, rfl⟩ : ∃ k : Nat, e = -k := ⟨e.natAbs, by omega⟩
    refine ⟨hden, ?_⟩
    simp only [Int.natAbs_neg, Int.natAbs_natCast, zpow_neg, zpow_natCast]
    push_cast
    field_simp
  · rename_i he
    obtain ⟨k, rfl⟩ : ∃ k : Nat, e = k := ⟨e.natAbs, by omega⟩
    refine ⟨Nat.mul_pos hden (Nat.two_pow_pos _), ?_⟩
    simp only [Int.natAbs_natCast, zpow_natCast]
    push_cast
    field_simp

/-- Whether a scaled quotient has so many bits. -/
theorem scaled_div_lt (num : Nat) {den : Nat} (hden : 0 < den) (e : Int) (b : Nat) :
    (Binary.scaled num den e).1 / (Binary.scaled num den e).2 < 2 ^ b ↔
      (num : ℚ) / den < 2 ^ (e + b) := by
  obtain ⟨hpos, hdiv⟩ := scaled_spec num hden e
  have hpos' : (0 : ℚ) < ((Binary.scaled num den e).2 : ℚ) := by exact_mod_cast hpos
  rw [Nat.div_lt_iff_lt_mul hpos, two_zpow_add, mul_comm ((2 : ℚ) ^ e), ← div_lt_iff₀ (two_zpow_pos e),
    ← hdiv, div_lt_iff₀ hpos', zpow_natCast]
  exact_mod_cast Iff.rfl

/-- The exponent of a quotient before the smallest exponent is looked at. -/
theorem exponentOf_spec {num den : Nat} (hnum : 0 < num) (hden : 0 < den) :
    ∃ e : Int, Binary.exponentOf num den = max e Binary.minExponent ∧
      (2 : ℚ) ^ (e + 52) ≤ num / den ∧ (num : ℚ) / den < 2 ^ (e + 53) := by
  have hden' : (0 : ℚ) < den := by exact_mod_cast hden
  have hlow : (2 : ℚ) ^ ((num.log2 : Int) - den.log2 - 1) < num / den := by
    have h1 : (2 : ℚ) ^ (num.log2 : Int) ≤ num := by
      exact_mod_cast Nat.log2_self_le hnum.ne'
    have h2 : (den : ℚ) < 2 ^ ((den.log2 : Int) + 1) := by
      exact_mod_cast Nat.lt_log2_self
    rw [lt_div_iff₀ hden']
    calc (2 : ℚ) ^ ((num.log2 : Int) - den.log2 - 1) * den
        < 2 ^ ((num.log2 : Int) - den.log2 - 1) * 2 ^ ((den.log2 : Int) + 1) :=
          mul_lt_mul_of_pos_left h2 (two_zpow_pos _)
      _ = 2 ^ (num.log2 : Int) := by rw [← two_zpow_add]; congr 1; omega
      _ ≤ num := h1
  have hhigh : (num : ℚ) / den < 2 ^ ((num.log2 : Int) - den.log2 + 1) := by
    have h1 : (num : ℚ) < 2 ^ ((num.log2 : Int) + 1) := by
      exact_mod_cast Nat.lt_log2_self
    have h2 : (2 : ℚ) ^ (den.log2 : Int) ≤ den := by
      exact_mod_cast Nat.log2_self_le hden.ne'
    rw [div_lt_iff₀ hden']
    calc (num : ℚ) < 2 ^ ((num.log2 : Int) + 1) := h1
      _ = 2 ^ ((num.log2 : Int) - den.log2 + 1) * 2 ^ (den.log2 : Int) := by
          rw [← two_zpow_add]; congr 1; omega
      _ ≤ 2 ^ ((num.log2 : Int) - den.log2 + 1) * den :=
          mul_le_mul_of_nonneg_left h2 (two_zpow_pos _).le
  simp only [Binary.exponentOf]
  generalize hg : (num.log2 : Int) - den.log2 - Binary.mantissaBits = g
  have hg' : (num.log2 : Int) - den.log2 = g + 52 := by
    rw [← hg, Binary.mantissaBits]
    omega
  have htest := scaled_div_lt num hden g Binary.mantissaBits
  rw [hg'] at hlow hhigh
  split
  · rename_i h
    refine ⟨g - 1, rfl, ?_, ?_⟩
    · rw [show g - 1 + 52 = g + 52 - 1 by omega]
      exact hlow.le
    · convert htest.mp h using 2
      rw [Binary.mantissaBits]
      push_cast
      ring
  · rename_i h
    exact ⟨g, rfl, not_lt.mp (mt htest.mpr h), by rwa [add_assoc] at hhigh⟩

/-- A quotient that the widest format has gets the exponent it is stored with. -/
theorem Canonical.exponentOf {m num den : Nat} {q : Int} (h : double.Canonical m q)
    (hnum : 0 < num) (hden : 0 < den) (hv : (num : ℚ) / den = dyadic m q) :
    Binary.exponentOf num den = q := by
  obtain ⟨e, he, hlow, hhigh⟩ := exponentOf_spec hnum hden
  have hmin : Binary.minExponent = double.minExponent := by decide
  have hq := h.min_le
  have hlt : dyadic m q < 2 ^ (q + 53) := dyadic_lt_two_zpow.mpr h.mantissa_lt
  rw [hv] at hlow hhigh
  rw [he, hmin]
  rcases h.full with hfull | heq
  · have hle : 2 ^ (q + 52) ≤ dyadic m q := two_zpow_le_dyadic.mpr hfull
    have : e + 52 = q + 52 :=
      exponent_unique hlow (by rwa [add_assoc]) hle (by rwa [add_assoc])
    omega
  · have : e + 52 < q + 53 :=
      two_zpow_lt.mp (hlow.trans_lt hlt)
    omega

theorem roundedQuotient_mul (m : Nat) {den : Nat} (hden : 0 < den) :
    Binary.roundedQuotient (m * den) den = m := by
  simp [Binary.roundedQuotient, Nat.mul_div_cancel _ hden, hden]

/-- Nothing is rounded in a quotient that the widest format has. -/
theorem Canonical.nearest {m num den : Nat} {q : Int} (h : double.Canonical m q)
    (hden : 0 < den) (hv : (num : ℚ) / den = dyadic m q) :
    Binary.nearest num den = double.pack m q := by
  have hden' : (den : ℚ) ≠ 0 := by positivity
  by_cases hnum : num = 0
  · have hm : m = 0 := by
      by_contra hm
      have := dyadic_pos (Nat.pos_of_ne_zero hm) q
      simp [← hv, hnum] at this
    simp [Binary.nearest, hnum, pack, hm]
  · have hexp := h.exponentOf (Nat.pos_of_ne_zero hnum) hden hv
    obtain ⟨hpos, hdiv⟩ := scaled_spec num hden q
    have hscaled : (Binary.scaled num den q).1 = m * (Binary.scaled num den q).2 := by
      have hne : ((Binary.scaled num den q).2 : ℚ) ≠ 0 := by positivity
      rw [hv, dyadic, mul_div_assoc, div_self (two_zpow_pos q).ne', mul_one,
        div_eq_iff hne] at hdiv
      exact_mod_cast hdiv
    have hm : m ≠ 2 ^ (Binary.mantissaBits + 1) := h.mantissa_lt.ne
    simp only [Binary.nearest, hnum, hden.ne', or_self, if_false, hexp, hscaled,
      roundedQuotient_mul m hpos, hm]
    have hmax : ¬ q > Binary.maxExponent := not_lt.mpr h.le_max
    rw [if_neg hmax]
    rfl

/-! ## Reading bits -/

/-- Bits of a format that has the number are read as that number. -/
theorem Canonical.widen {n m : Nat} {e q : Int} (hf : f.Centred) (h : f.Canonical n e)
    (h64 : double.Canonical m q) (hv : dyadic n e = dyadic m q) (negative : Bool) :
    f.widen (f.signed negative + f.pack n e) = Binary.signed negative (double.pack m q) := by
  obtain ⟨raw, fraction, hpack, hfraction, hraw, hm, hq⟩ := h.fields hf
  obtain ⟨hsign, hexp, hmod⟩ := fields_signed raw negative hfraction (Nat.lt_of_succ_lt hraw)
  have hne : raw ≠ 2 ^ f.exponentBits - 1 := by omega
  have hnearest : (if e < 0 then Binary.nearest n (2 ^ e.natAbs)
      else Binary.nearest (n * 2 ^ e.natAbs) 1) = double.pack m q := by
    split
    · rename_i he
      refine h64.nearest (Nat.two_pow_pos _) (hv ▸ ?_)
      obtain ⟨k, rfl⟩ : ∃ k : Nat, e = -k := ⟨e.natAbs, by omega⟩
      simp [dyadic, div_eq_mul_inv]
    · rename_i he
      refine h64.nearest one_pos (hv ▸ ?_)
      obtain ⟨k, rfl⟩ : ∃ k : Nat, e = k := ⟨e.natAbs, by omega⟩
      simp [dyadic]
  rw [hpack]
  simp only [Format.widen, hsign, hexp, hmod, hne, if_false, hm, hq, hnearest]
  cases negative <;> rfl

/-- The bits of an infinite number are read as that number in every format. -/
theorem widen_infinite (f : Format) (negative : Bool) :
    f.widen (f.signed negative + f.infinity) = Binary.signed negative Binary.infinityBits := by
  have hpos := Nat.two_pow_pos f.exponentBits
  obtain ⟨hsign, hexp, hmod⟩ := fields_signed (f := f) (2 ^ f.exponentBits - 1) negative
    (Nat.two_pow_pos _) (by omega)
  rw [add_zero, ← infinity] at hsign hexp hmod
  simp only [Format.widen, hsign, hexp, hmod, if_true]
  cases negative <;> rfl

end Format

/-! ## The parts of a number -/

theorem eq_signed {x : Float} {bits : Nat} (h : x.toBits.toNat % 2 ^ 63 = bits) :
    x = Binary.signed (x.toBits.toNat / 2 ^ 63 % 2 = 1) bits := by
  have hlt : x.toBits.toNat < 2 ^ 64 := x.toBits.toNat_lt
  have hbits : (if decide (x.toBits.toNat / 2 ^ 63 % 2 = 1) then bits + Binary.signBit else bits) =
      x.toBits.toNat := by
    rw [Binary.signBit]
    split <;> rename_i hsign
    · have := of_decide_eq_true hsign
      omega
    · have : ¬ x.toBits.toNat / 2 ^ 63 % 2 = 1 := fun h => hsign (decide_eq_true h)
      omega
  rw [Binary.signed, hbits, Nat.toUInt64, UInt64.ofNat_toNat, Float.ofBits_toBits]

/-- All bits of the exponent and some bit of the fraction stand for no number. -/
theorem eq_nan {x : Float} (hexp : x.toBits.toNat / 2 ^ 52 % 2048 = 2047)
    (hfraction : x.toBits.toNat % 2 ^ 52 ≠ 0) : x = Float.nan := by
  refine Float.toBits_inj.mp (UInt64.toBitVec_inj.mp (x.toModel.valid.eq_packedNaN ?_ ?_))
  · rw [Float.Model.UnpackedFloat.unpackExponent_def]
    apply BitVec.eq_of_toNat_eq
    rw [BitVec.extractLsb'_toNat, Nat.shiftRight_eq_div_pow]
    exact hexp
  · rw [Float.Model.UnpackedFloat.unpackMantissa_def]
    intro h
    apply hfraction
    have := congrArg BitVec.toNat h
    rw [BitVec.extractLsb'_toNat, Nat.shiftRight_eq_div_pow] at this
    simpa using! this

theorem parts_spec (x : Float) :
    match Binary.parts x with
    | .nan => x = Float.nan
    | .infinite negative => x = Binary.signed negative Binary.infinityBits
    | .finite negative m q =>
      Format.double.Canonical m q ∧ x = Binary.signed negative (Format.double.pack m q) := by
  have hlt : x.toBits.toNat < 2 ^ 64 := x.toBits.toNat_lt
  have hpack : ∀ m q, Format.double.pack m q =
      if m < 2 ^ 52 then m else (q + 1075).toNat * 2 ^ 52 + (m - 2 ^ 52) := by
    intro m q
    simp only [Format.pack, Format.double, Format.minExponent]
    congr 4
    omega
  have hcanonical : ∀ m q, m < 2 ^ 53 → -1074 ≤ q → q ≤ 971 → (2 ^ 52 ≤ m ∨ q = -1074) →
      Format.double.Canonical m q := fun m q h1 h2 h3 h4 => ⟨h1, h2, h3, h4⟩
  simp only [Binary.parts, Binary.partsOfBits, Binary.mantissaBits, Binary.minExponent,
    Binary.signBit]
  by_cases hnan : x.toBits.toNat / 2 ^ 52 % 2048 = 2047
  · by_cases hfraction : x.toBits.toNat % 2 ^ 52 = 0
    · simp only [hnan, hfraction, if_true]
      refine eq_signed ?_
      rw [Binary.infinityBits]
      omega
    · simp only [hnan, hfraction, if_true, if_false]
      exact eq_nan hnan hfraction
  · by_cases hzero : x.toBits.toNat / 2 ^ 52 % 2048 = 0
    · simp only [hzero, if_true]
      refine ⟨hcanonical _ _ (by omega) (by omega) (by omega) (.inr rfl), eq_signed ?_⟩
      rw [hpack, if_pos (by omega)]
      omega
    · simp only [hnan, hzero, if_false]
      refine ⟨hcanonical _ _ (by omega) (by omega) (by omega) (.inl (by omega)), eq_signed ?_⟩
      rw [hpack, if_neg (by omega)]
      omega

/-! ## Narrowing and reading -/

namespace Format

variable {f : Format}

/-- The bits that a format has for a number are read as that number. -/
theorem widen_narrow? (hf : f.Centred) {x : Float} {bits : Nat} (hx : x ≠ Float.nan)
    (h : f.narrow? x = some bits) : f.widen bits = x ∧ bits < 2 * f.signBit := by
  have hsigned : ∀ negative, f.signed negative ≤ f.signBit := by
    intro negative
    cases negative <;> simp [signed]
  have hlt := f.infinity_lt
  have hparts := parts_spec x
  unfold narrow? at h
  split at h <;> rename_i heq <;> rw [heq] at hparts
  · exact absurd hparts hx
  · rename_i negative
    obtain rfl := Option.some.inj h
    refine ⟨(f.widen_infinite negative).trans hparts.symm, ?_⟩
    have : f.signed negative + f.infinity < 2 * f.signBit := by
      have := hsigned negative
      omega
    exact this
  · rename_i negative m q
    obtain ⟨bits', hmag, rfl⟩ := Option.map_eq_some_iff.mp h
    obtain ⟨n, e, hcanonical, hvalue, rfl⟩ := magnitude?_spec hf hmag
    refine ⟨(hcanonical.widen hf hparts.1 hvalue negative).trans hparts.2.symm, ?_⟩
    have : f.signed negative + f.pack n e < 2 * f.signBit := by
      have := hsigned negative
      have := hcanonical.pack_lt hf
      omega
    exact this

/-- The widest format has every number. -/
theorem double_narrow? {x : Float} (hx : x ≠ Float.nan) : ∃ bits, double.narrow? x = some bits := by
  have hparts := parts_spec x
  unfold narrow?
  split <;> rename_i heq <;> rw [heq] at hparts
  · exact absurd hparts hx
  · exact ⟨_, rfl⟩
  · rw [hparts.1.magnitude?]
    exact ⟨_, rfl⟩

end Format

namespace Item

/-- The item of a number is a number in one of the formats, within its bits. -/
theorem ofFloat_cases (x : Float) :
    (∃ bits < 2 ^ 16, ofFloat x = .half bits ∧ Format.half.widen bits = x) ∨
      (∃ bits < 2 ^ 32, ofFloat x = .single bits ∧ Format.single.widen bits = x) ∨
      ∃ bits < 2 ^ 64, ofFloat x = .double bits ∧ Format.double.widen bits = x := by
  by_cases hx : x = Float.nan
  · have hparts : Binary.parts Float.nan = .nan := by decide +kernel
    have hnarrow : Format.half.narrow? Float.nan = some Format.half.quiet := by
      rw [Format.narrow?, hparts]
    refine .inl ⟨Format.half.quiet, by decide, by rw [hx, ofFloat, hnarrow], ?_⟩
    rw [hx]
    exact Float.toBits_inj.mp (by decide +kernel)
  unfold ofFloat
  split
  · rename_i bits h
    obtain ⟨hwiden, hlt⟩ := Format.widen_narrow? Format.half_centred hx h
    exact .inl ⟨bits, hlt, rfl, hwiden⟩
  · split
    · rename_i bits h
      obtain ⟨hwiden, hlt⟩ := Format.widen_narrow? Format.single_centred hx h
      exact .inr (.inl ⟨bits, hlt, rfl, hwiden⟩)
    · obtain ⟨bits, h⟩ := Format.double_narrow? hx
      obtain ⟨hwiden, hlt⟩ := Format.widen_narrow? Format.double_centred hx h
      exact .inr (.inr ⟨bits, hlt, by rw [h, Option.getD_some], hwiden⟩)

/-- The item of a number holds that number. -/
theorem asFloat?_ofFloat (x : Float) : asFloat? (ofFloat x) = some x := by
  obtain ⟨bits, -, heq, hwiden⟩ | ⟨bits, -, heq, hwiden⟩ | ⟨bits, -, heq, hwiden⟩ :=
    ofFloat_cases x
  all_goals simp [heq, asFloat?, value?, untagged, isNull, hwiden]

end Item
end Bareword.Cbor
