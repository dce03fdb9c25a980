import Ember.Value
import Mathlib

/-!
# Amount — what numbers stand for

Every number but a NaN stands for a rational or for an infinite amount. Whether two numbers are
equal is decided in the integers, on bit patterns, or by the processor; in all cases it is whether
they stand for the same amount.

* `Amount`, `Decimal.amount?`: what a floating-point number stands for, from its bit pattern.
* `Decimal.Unpacks`: the logical model of floating-point numbers reads bit patterns in the same way.
* `Decimal.beq_iff_amount`, `Decimal.compareIntFloat_iff_amount`: equality is that of amounts.
-/

namespace Ember

/-- What a number stands for. -/
inductive Amount where
  | finite (q : ℚ)
  | infinite (negative : Bool)
deriving DecidableEq

namespace Decimal

/-- What a bit pattern stands for, if it is not that of a NaN. -/
def amountOfBits (bits : UInt64) : Amount :=
  if isFiniteBits bits then
    let d := Dyadic.ofBits bits
    let m : Int := if signBit bits then -(d.mantissa : Int) else d.mantissa
    .finite (m * 2 ^ d.exponent)
  else .infinite (signBit bits)

/-- What a floating-point number stands for; a NaN stands for nothing. -/
def amount? (x : Float) : Option Amount :=
  if x.isNaN then none else some (amountOfBits x.toBits)

/-! ### The fields of a bit pattern -/

section Fields

open Float.Model Float.Model.UnpackedFloat

variable (bits : UInt64)

/-- The sign of a bit pattern. -/
def signOf : Sign := if signBit bits then .negative else .positive

/-- The exponent field that the reader masks out is the one of the binary format. -/
theorem toNat_exponentBits : ((bits >>> 52) &&& 0x7ff).toNat
    = (@unpackExponent .binary64 bits.toBitVec).toNat := by
  change (bits.toNat >>> 52) &&& (2 ^ 11 - 1) = (bits.toNat >>> 52) % 2 ^ 11
  exact Nat.and_two_pow_sub_one_eq_mod _ 11

/-- The mantissa field that the reader masks out is the one of the binary format. -/
theorem toNat_mantissaBits : (bits &&& 0xfffffffffffff).toNat
    = (@unpackMantissa .binary64 bits.toBitVec).toNat := by
  change bits.toNat &&& (2 ^ 52 - 1) = (bits.toNat >>> 0) % 2 ^ 52
  exact Nat.and_two_pow_sub_one_eq_mod _ 52

/-- A pattern is finite when its exponent field is not all ones. -/
theorem isFiniteBits_iff :
    isFiniteBits bits = true ↔ @unpackExponent .binary64 bits.toBitVec ≠ -1#11 := by
  rw [isFiniteBits, bne_iff_ne, not_iff_not, ← UInt64.toNat_inj, toNat_exponentBits,
    ← BitVec.toNat_inj]
  rfl

theorem ofBitVec_unpackSign :
    Sign.ofBitVec (@unpackSign .binary64 bits.toBitVec) = signOf bits := by
  have hlt := bits.toNat_lt
  have hleft : signBit bits = true ↔ bits.toNat / 2 ^ 63 = 1 := by
    simp [signBit, ← UInt64.toNat_inj, Nat.shiftRight_eq_div_pow]
  have hright : @unpackSign .binary64 bits.toBitVec = 0#1 ↔ bits.toNat / 2 ^ 63 = 0 := by
    simp [unpackSign, ← BitVec.toNat_inj, Nat.shiftRight_eq_div_pow]
    omega
  rw [Sign.ofBitVec, signOf]
  by_cases hsign : signBit bits = true
  · rw [if_pos hsign, if_neg (by rw [hright]; have := hleft.mp hsign; omega)]
  · rw [if_neg hsign, if_pos (by rw [hright]; have := mt hleft.mpr hsign; omega)]

/-- The implicit leading one of a normal number adds two to the power of 52. -/
theorem toNat_one_append (f : BitVec 52) : (1#1 ++ f).toNat = 2 ^ 52 + f.toNat := by
  rw [BitVec.toNat_append, Nat.shiftLeft_eq, Nat.mul_comm]
  exact (Nat.two_pow_add_eq_or_of_lt f.isLt 1).symm

/-- How the logical model of floating-point numbers reads a bit pattern. -/
inductive Unpacks (bits : UInt64) : UnpackedFloat → Prop where
  | notANumber : Unpacks bits .notANumber
  | infinity (h : isFiniteBits bits = false) : Unpacks bits (.infinity (signOf bits))
  | zero (h : isFiniteBits bits = true) (hm : (Dyadic.ofBits bits).mantissa = 0) :
      Unpacks bits (.zero (signOf bits))
  | finite (h : isFiniteBits bits = true) (hm : 0 < (Dyadic.ofBits bits).mantissa) :
      Unpacks bits (.finite (signOf bits) (Dyadic.ofBits bits).mantissa
        (Dyadic.ofBits bits).exponent hm)

/-- A finite pattern is unpacked to any sign, mantissa and exponent that equal its own. -/
theorem Unpacks.finite_of_eq {s : Sign} {m : Nat} {e : Int} {hm : 0 < m}
    (h : isFiniteBits bits = true) (hs : s = signOf bits)
    (hmantissa : m = (Dyadic.ofBits bits).mantissa)
    (hexponent : e = (Dyadic.ofBits bits).exponent) : Unpacks bits (.finite s m e hm) := by
  subst hs hmantissa hexponent
  exact .finite h hm

theorem exponentBias_eq :
    (Format.binary64.exponentBias : Int) + Format.binary64.mantissaBitsWithoutImplicit = 1075 := rfl

theorem unpacks_unpack : Unpacks bits (UnpackedFloat.unpack .binary64 bits.toBitVec) := by
  rw [UnpackedFloat.unpack, ofBitVec_unpackSign, exponentBias_eq]
  split_ifs with hmax hzero hmin hzero
  · exact .infinity (Bool.eq_false_iff.mpr fun hfinite => (isFiniteBits_iff bits).mp hfinite hmax)
  · exact .notANumber
  all_goals have hfinite := (isFiniteBits_iff bits).mpr hmax
  · refine .zero hfinite ?_
    rw [Dyadic.ofBits, toNat_exponentBits, toNat_mantissaBits, hmin, hzero]
    rfl
  · refine Unpacks.finite_of_eq _ hfinite rfl ?_ ?_
    · rw [Dyadic.ofBits, toNat_exponentBits, toNat_mantissaBits, hmin]
      rfl
    · rw [Dyadic.ofBits, toNat_exponentBits, hmin]
      rfl
  · have he : (@unpackExponent .binary64 bits.toBitVec).toNat ≠ 0 :=
      fun h => hmin (BitVec.eq_of_toNat_eq h)
    refine Unpacks.finite_of_eq _ hfinite rfl ?_ ?_
    · rw [Dyadic.ofBits, toNat_exponentBits, toNat_mantissaBits, if_neg he]
      exact toNat_one_append _
    · rw [Dyadic.ofBits, toNat_exponentBits, if_neg he]

/-- The magnitude of a bit pattern has 53 binary digits, or less and the least exponent. -/
structure Dyadic.Canonical (d : Dyadic) : Prop where
  mantissa : d.mantissa < 2 ^ 53
  exponent : -1074 ≤ d.exponent
  normal : 2 ^ 52 ≤ d.mantissa ∨ d.exponent = -1074

/-- The mantissa and exponent of a pattern are canonical, whether it is normal or not. -/
theorem Dyadic.canonical_ofBits : (Dyadic.ofBits bits).Canonical := by
  have hf : (bits &&& 0xfffffffffffff).toNat < 2 ^ 52 := by
    rw [toNat_mantissaBits]
    exact BitVec.isLt _
  have hpow : pow2 52 = 2 ^ 52 := rfl
  unfold Dyadic.ofBits
  dsimp only
  split_ifs with he
  · exact ⟨by dsimp only; omega, le_refl _, .inr rfl⟩
  · exact ⟨by dsimp only; omega, by dsimp only; omega, .inl (by dsimp only; omega)⟩

end Fields

/-! ### Magnitudes -/

/-- The magnitude as a rational. -/
def Dyadic.amount (d : Dyadic) : ℚ := d.mantissa * 2 ^ d.exponent

/-- With a larger exponent goes a larger magnitude, if the mantissa has all digits. -/
theorem Dyadic.exponent_le {d e : Dyadic} (hd : d.Canonical) (he : e.Canonical)
    (h : d.amount = e.amount) : e.exponent ≤ d.exponent := by
  by_contra hlt
  rw [not_le] at hlt
  obtain ⟨k, hk⟩ : ∃ k : Nat, e.exponent = d.exponent + (k + 1 : Nat) :=
    ⟨(e.exponent - d.exponent).toNat - 1, by omega⟩
  have hshift : (d.mantissa : ℚ) = e.mantissa * 2 ^ (k + 1) := by
    have hpos : (2 : ℚ) ^ d.exponent ≠ 0 := by positivity
    have h' := h
    rw [amount, amount, hk, zpow_add₀ (by norm_num), zpow_natCast] at h'
    exact mul_right_cancel₀ hpos (by rw [h', mul_assoc, mul_comm (2 ^ (k + 1))])
  have hnat : d.mantissa = e.mantissa * 2 ^ (k + 1) := by exact_mod_cast hshift
  have hfull : 2 ^ 52 ≤ e.mantissa := he.normal.resolve_right (by have := hd.exponent; omega)
  have hd53 := hd.mantissa
  have htwo : 2 ≤ 2 ^ (k + 1) := by rw [pow_succ]; have := Nat.one_le_two_pow (n := k); omega
  have hmul : 2 ^ 52 * 2 ≤ e.mantissa * 2 ^ (k + 1) := Nat.mul_le_mul hfull htwo
  omega

/-- Different bit patterns have different magnitudes. -/
theorem Dyadic.eq_of_amount {d e : Dyadic} (hd : d.Canonical) (he : e.Canonical)
    (h : d.amount = e.amount) : d.mantissa = e.mantissa ∧ d.exponent = e.exponent := by
  have hexp : d.exponent = e.exponent :=
    le_antisymm (exponent_le he hd h.symm) (exponent_le hd he h)
  have hpos : (2 : ℚ) ^ e.exponent ≠ 0 := by positivity
  rw [amount, amount, hexp] at h
  exact ⟨by exact_mod_cast mul_right_cancel₀ hpos h, hexp⟩

/-! ### Equality -/

section Equality

open Float.Model Float.Model.UnpackedFloat

variable {b c : UInt64} {u v : UnpackedFloat}

/-- A pattern that is not finite has an infinite amount, of its sign. -/
theorem amountOfBits_infinity (h : isFiniteBits b = false) :
    amountOfBits b = .infinite (signBit b) := by
  rw [amountOfBits, if_neg (by rw [h]; exact Bool.false_ne_true)]

/-- A finite pattern has the amount of its mantissa and exponent, with its sign. -/
theorem amountOfBits_finite (h : isFiniteBits b = true) : amountOfBits b
    = .finite (if signBit b then -(Dyadic.ofBits b).amount else (Dyadic.ofBits b).amount) := by
  rw [amountOfBits, if_pos h]
  split <;> simp [Dyadic.amount]

/-- Both patterns with mantissa zero have the amount zero. -/
theorem amountOfBits_zero (h : isFiniteBits b = true) (hm : (Dyadic.ofBits b).mantissa = 0) :
    amountOfBits b = .finite 0 := by
  rw [amountOfBits_finite h, Dyadic.amount, hm]
  simp

theorem Dyadic.amount_pos {d : Dyadic} (h : 0 < d.mantissa) : 0 < d.amount := by
  have hm : (0 : ℚ) < d.mantissa := by exact_mod_cast h
  rw [amount]
  positivity

/-- Magnitudes in canonical form are compared by exponent and then by mantissa. -/
theorem Dyadic.then_eq_iff {d e : Dyadic} (hd : d.Canonical) (he : e.Canonical) :
    (compare d.exponent e.exponent).then (compare d.mantissa e.mantissa) = .eq
      ↔ d.amount = e.amount := by
  rw [Ordering.then_eq_eq, compare_eq_iff_eq, compare_eq_iff_eq]
  constructor
  · rintro ⟨hexp, hmantissa⟩
    rw [amount, amount, hexp, hmantissa]
  · exact fun h => (eq_of_amount hd he h).symm

/-- Two numbers that are not NaNs compare as equal if they stand for the same amount. -/
theorem compare_iff_amount (hu : Unpacks b u) (hv : Unpacks c v) (hun : u.isNaN = false)
    (hvn : v.isNaN = false) : u.compare v = some .eq ↔ amountOfBits b = amountOfBits c := by
  cases hu with
  | notANumber => cases hun
  | infinity hb =>
      rw [amountOfBits_infinity hb]
      cases hv with
      | notANumber => cases hvn
      | infinity hc =>
          rw [amountOfBits_infinity hc]
          unfold signOf
          cases signBit b <;> cases signBit c <;> simp [UnpackedFloat.compare] <;> rfl
      | zero hc hm | finite hc hm =>
          rw [amountOfBits_finite hc]
          unfold signOf
          cases signBit b <;> simp [UnpackedFloat.compare]
  | zero hb hmb =>
      rw [amountOfBits_zero hb hmb]
      cases hv with
      | notANumber => cases hvn
      | infinity hc =>
          rw [amountOfBits_infinity hc]
          unfold signOf
          cases signBit c <;> simp [UnpackedFloat.compare]
      | zero hc hmc =>
          rw [amountOfBits_zero hc hmc]
          simp [UnpackedFloat.compare]
      | finite hc hmc =>
          have hpos := (Dyadic.amount_pos hmc).ne'
          rw [amountOfBits_finite hc]
          unfold signOf
          cases signBit c <;> simp [UnpackedFloat.compare, hpos, hpos.symm]
  | finite hb hmb =>
      rw [amountOfBits_finite hb]
      cases hv with
      | notANumber => cases hvn
      | infinity hc =>
          rw [amountOfBits_infinity hc]
          unfold signOf
          cases signBit c <;> simp [UnpackedFloat.compare]
      | zero hc hmc =>
          have hpos := (Dyadic.amount_pos hmb).ne'
          rw [amountOfBits_zero hc hmc]
          unfold signOf
          cases signBit b <;> simp [UnpackedFloat.compare, hpos]
      | finite hc hmc =>
          have hposb := Dyadic.amount_pos hmb
          have hposc := Dyadic.amount_pos hmc
          have hthen := Dyadic.then_eq_iff (Dyadic.canonical_ofBits b) (Dyadic.canonical_ofBits c)
          rw [amountOfBits_finite hc]
          unfold signOf
          cases signBit b <;> cases signBit c
          · simpa [UnpackedFloat.compare] using hthen
          · have hne : (Dyadic.ofBits b).amount ≠ -(Dyadic.ofBits c).amount := fun h => by linarith
            simp [UnpackedFloat.compare, hne]
          · have hne : -(Dyadic.ofBits b).amount ≠ (Dyadic.ofBits c).amount := fun h => by linarith
            simp [UnpackedFloat.compare, hne]
          · simpa [UnpackedFloat.compare] using hthen

/-- A NaN compares with nothing. -/
theorem compare_of_isNaN (h : u.isNaN = true ∨ v.isNaN = true) : u.compare v = none := by
  rcases h with h | h
  · cases u with
    | notANumber => cases v <;> rfl
    | infinity s | zero s | finite s m e hm => cases h
  · cases v with
    | notANumber => cases u <;> rfl
    | infinity s | zero s | finite s m e hm => cases h

end Equality

theorem amount?_eq_none {x : Float} (h : x.isNaN = true) : amount? x = none := if_pos h

theorem amount?_eq_some {x : Float} (h : x.isNaN = false) :
    amount? x = some (amountOfBits x.toBits) := by
  rw [amount?, if_neg (by rw [h]; exact Bool.false_ne_true)]

/-- Equality of floats is the comparison of their unpacked forms. -/
theorem beq_iff_compare {x y : Float} :
    (x == y) = true ↔ x.toModel.unpack.compare y.toModel.unpack = some .eq := by
  change (x.toModel.unpack.compare y.toModel.unpack == some .eq) = true ↔ _
  exact beq_iff_eq

/-- The order of floats is the comparison of their unpacked forms. -/
theorem lt_iff_compare {x y : Float} :
    x < y ↔ x.toModel.unpack.compare y.toModel.unpack = some .lt := by
  change decide ((x.toModel.unpack.compare y.toModel.unpack == some .lt) = true) = true ↔ _
  rw [decide_eq_true_iff, beq_iff_eq]

/-- Floating-point numbers are equal if they stand for the same amount. -/
theorem beq_iff_amount {x y : Float} :
    (x == y) = true ↔ ∃ q, amount? x = some q ∧ amount? y = some q := by
  rw [beq_iff_compare]
  by_cases hnan : x.isNaN = true ∨ y.isNaN = true
  · rw [compare_of_isNaN hnan]
    refine iff_of_false nofun ?_
    rintro ⟨q, hx, hy⟩
    rcases hnan with hnan | hnan
    · cases (amount?_eq_none hnan).symm.trans hx
    · cases (amount?_eq_none hnan).symm.trans hy
  · rw [not_or, Bool.not_eq_true, Bool.not_eq_true] at hnan
    obtain ⟨hx, hy⟩ := hnan
    rw [amount?_eq_some hx, amount?_eq_some hy]
    refine (compare_iff_amount (unpacks_unpack x.toBits) (unpacks_unpack y.toBits) hx hy).trans ?_
    simp [eq_comm]

/-- Two floats compare as equal exactly when both have an amount and the amounts are the same. -/
theorem compareFloats_iff_amount {x y : Float} :
    compareFloats x y = some .eq ↔ ∃ q, amount? x = some q ∧ amount? y = some q := by
  rw [← beq_iff_amount, compareFloats]
  split_ifs with hlt heq hgt
  · refine iff_of_false (by decide) fun heq => ?_
    cases (lt_iff_compare.mp hlt).symm.trans (beq_iff_compare.mp heq)
  · exact iff_of_true rfl heq
  · exact iff_of_false (by decide) heq
  · exact iff_of_false (by decide) heq

/-- An integer equals a scaled integer exactly when the two are the same rational number. -/
theorem compareScaled_iff {a m e : Int} : compareScaled a m e = .eq ↔ (m * 2 ^ e : ℚ) = a := by
  have hpos : (2 : ℚ) ^ (-e).toNat ≠ 0 := by positivity
  have hpow : (2 : ℚ) ^ e.toNat = 2 ^ e * 2 ^ (-e).toNat := by
    rw [← zpow_natCast, ← zpow_natCast, ← zpow_add₀ (by norm_num)]
    congr 1
    omega
  rw [compareScaled, compare_eq_iff_eq, ← mul_left_inj' hpos, mul_assoc, ← hpow, eq_comm]
  change m * ((2 ^ e.toNat : Nat) : Int) = a * ((2 ^ (-e).toNat : Nat) : Int) ↔ _
  exact_mod_cast Iff.rfl

/-- An integer and a floating-point number are equal if the integer is what the other one stands
for. -/
theorem compareIntFloat_iff_amount {a : Int} {x : Float} :
    compareIntFloat a x = some .eq ↔ amount? x = some (.finite a) := by
  rw [compareIntFloat, amount?, amountOfBits]
  by_cases hnan : x.isNaN = true
  · rw [if_pos hnan, if_pos hnan]
    exact iff_of_false nofun nofun
  · rw [if_neg hnan, if_neg hnan]
    by_cases hfinite : isFiniteBits x.toBits = true
    · dsimp only
      rw [if_pos hfinite, if_pos hfinite, Option.some.injEq, compareScaled_iff, Option.some.injEq,
        Amount.finite.injEq]
    · dsimp only
      rw [if_neg hfinite, if_neg hfinite]
      refine iff_of_false ?_ nofun
      split <;> decide

end Decimal

/-- What a number stands for; a NaN stands for nothing, and neither do other values. -/
def Value.amount? : Value → Option Amount
  | .int i => some (.finite i)
  | .float x => Decimal.amount? x
  | _ => none

/-- Numbers are equal, whatever their kinds, if they stand for the same amount. -/
theorem compareNumbers_iff_amount {x y : Value} :
    compareNumbers x y = some .eq ↔ ∃ q, x.amount? = some q ∧ y.amount? = some q := by
  cases x with
  | int a =>
      cases y with
      | int b => simp [compareNumbers, Value.amount?, eq_comm (a := a)]
      | float y => simp [compareNumbers, Value.amount?, Decimal.compareIntFloat_iff_amount]
      | _ => exact iff_of_false nofun fun ⟨_, _, hy⟩ => nomatch hy
  | float x =>
      cases y with
      | int b =>
          simp [compareNumbers, Value.amount?, Option.map_eq_some_iff,
            Decimal.compareIntFloat_iff_amount]
      | float y => exact Decimal.compareFloats_iff_amount
      | _ => exact iff_of_false nofun fun ⟨_, _, hy⟩ => nomatch hy
  | _ => exact iff_of_false nofun fun ⟨_, hx, _⟩ => nomatch hx

end Ember
