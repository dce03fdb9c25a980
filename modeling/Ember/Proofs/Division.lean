import Mathlib.Data.Rat.Floor
import Ember.Proofs.Confinement

/-!
# Division — the quotient and the remainder fit together

The quotient of two integers is computed from their absolute values, and the remainder is what the
quotient leaves. Together they give the dividend back, and no step on the way leaves the 64-bit
range: the product of the quotient and the divisor lies between zero and the dividend. Only one
quotient is out of range, that of the least integer and minus one; its remainder is zero.

* `quotient_eq_abs`, `quotient_eq_towardZero`: what the quotient is.
* `abs_remainder_lt`, `sign_remainder`: how large the remainder is, and which sign it has.
* `inRange_quotient_iff`: which quotients have 64 bits.
* `division_fits_remainder`: the operations on 64-bit integers.
-/

namespace Ember

variable {a b : Int}

/-! ### The quotient -/

/-- A rational number rounded toward zero. -/
def towardZero (x : ℚ) : Int := if 0 ≤ x then ⌊x⌋ else ⌈x⌉

theorem towardZero_eq_abs (x : ℚ) : towardZero x = if 0 ≤ x then ⌊|x|⌋ else -⌊|x|⌋ := by
  unfold towardZero
  by_cases hx : 0 ≤ x
  · simp only [if_pos hx, abs_of_nonneg hx]
  · simp only [if_neg hx, abs_of_neg (not_le.mp hx), Int.floor_neg, Int.neg_neg]

/-- The quotient is that of the absolute values, negative if the signs differ. -/
theorem quotient_eq_abs (a b : Int) :
    quotient a b = if (a < 0 ↔ b < 0) then |a| / |b| else -(|a| / |b|) := by
  unfold quotient
  by_cases ha : a < 0 <;> by_cases hb : b < 0
  · rw [if_pos (by simp [ha, hb]), abs_of_neg ha, abs_of_neg hb]
    rw [← Int.neg_tdiv_neg, Int.tdiv_eq_ediv_of_nonneg (by omega)]
  · rw [if_neg (by simp [ha, hb]), abs_of_neg ha, abs_of_nonneg (not_lt.mp hb)]
    rw [← Int.tdiv_eq_ediv_of_nonneg (by omega), Int.neg_tdiv, Int.neg_neg]
  · rw [if_neg (by simp [ha, hb]), abs_of_nonneg (not_lt.mp ha), abs_of_neg hb]
    rw [← Int.tdiv_eq_ediv_of_nonneg (by omega), Int.tdiv_neg, Int.neg_neg]
  · rw [if_pos (by simp [ha, hb]), abs_of_nonneg (not_lt.mp ha), abs_of_nonneg (not_lt.mp hb)]
    rw [Int.tdiv_eq_ediv_of_nonneg (by omega)]

/-- The floor of the absolute quotient is the quotient of the absolute values. -/
theorem floor_abs_div (a b : Int) : ⌊|(a : ℚ) / b|⌋ = |a| / |b| := by
  rw [abs_div, Int.abs_eq_natAbs b, ← Rat.floor_intCast_div_natCast]
  congr 2
  · push_cast
    rfl
  · simp

/-- **The quotient is the exact one, rounded toward zero.** -/
theorem quotient_eq_towardZero (hb : b ≠ 0) : quotient a b = towardZero ((a : ℚ) / b) := by
  rw [quotient_eq_abs, towardZero_eq_abs, floor_abs_div]
  by_cases ha : a = 0
  · simp [ha]
  · have hsign : 0 ≤ (a : ℚ) / b ↔ (a < 0 ↔ b < 0) := by
      rw [div_nonneg_iff]
      simp only [Int.cast_nonneg_iff, Int.cast_nonpos]
      omega
    simp only [hsign]

/-! ### The remainder -/

/-- The remainder is the library's remainder of division towards zero. -/
theorem remainder_eq_tmod (a b : Int) : remainder a b = Int.tmod a b := (Int.tmod_def a b).symm

/-- The remainder is smaller than the divisor in absolute value. -/
theorem abs_remainder_lt (hb : b ≠ 0) : |remainder a b| < |b| := by
  rw [remainder_eq_tmod, Int.abs_eq_natAbs, Int.abs_eq_natAbs, Int.natAbs_tmod, Int.ofNat_lt]
  exact Nat.mod_lt _ (Int.natAbs_pos.mpr hb)

/-- The remainder is zero or has the sign of the dividend. -/
theorem sign_remainder (a b : Int) : remainder a b = 0 ∨ (remainder a b).sign = a.sign := by
  rw [remainder_eq_tmod]
  by_cases hdvd : b ∣ a
  · exact .inl (Int.tmod_eq_zero_of_dvd hdvd)
  · exact .inr (by rw [Int.sign_tmod, if_neg hdvd])

/-- The remainder lies between zero and the dividend. -/
theorem remainder_between (a b : Int) :
    0 ≤ remainder a b ∧ remainder a b ≤ a ∨ a ≤ remainder a b ∧ remainder a b ≤ 0 := by
  have hle : (remainder a b).natAbs ≤ a.natAbs := by
    rw [remainder_eq_tmod, Int.natAbs_tmod]
    exact Nat.mod_le _ _
  rcases Int.le_total 0 a with ha | ha
  · have hnonneg : 0 ≤ remainder a b := by
      rw [remainder_eq_tmod]
      exact Int.tmod_nonneg b ha
    omega
  · have hnonpos : 0 ≤ remainder (-a) b := by
      rw [remainder_eq_tmod]
      exact Int.tmod_nonneg b (by omega)
    rw [remainder_eq_tmod, Int.neg_tmod, ← remainder_eq_tmod] at hnonpos
    omega

/-- Quotient times divisor plus remainder is the dividend. -/
theorem quotient_mul_add_remainder (a b : Int) : quotient a b * b + remainder a b = a := by
  rw [remainder, Int.mul_comm b]
  omega

/-! ### The range -/

/-- What lies between zero and an integer of the range is in the range. -/
theorem InRange.of_between {c : Int} (ha : InRange a) (hc : 0 ≤ c ∧ c ≤ a ∨ a ≤ c ∧ c ≤ 0) :
    InRange c := by
  simp only [InRange, intMin, intMax] at *
  omega

/-- The remainder of a 64-bit integer is a 64-bit integer. -/
theorem inRange_remainder (ha : InRange a) : InRange (remainder a b) :=
  ha.of_between (remainder_between a b)

/-- Quotient times divisor stays in the 64-bit range, since it is no larger than the dividend. -/
theorem inRange_product (ha : InRange a) : InRange (quotient a b * b) := by
  have hsum := quotient_mul_add_remainder a b
  have hbetween := remainder_between a b
  exact ha.of_between (by omega)

/-- **One quotient is out of range**, that of the least integer and minus one. -/
theorem inRange_quotient_iff (ha : InRange a) :
    InRange (quotient a b) ↔ ¬ (a = intMin ∧ b = -1) := by
  unfold quotient
  by_cases hone : b.natAbs ≤ 1
  · obtain rfl | rfl | rfl : b = 0 ∨ b = 1 ∨ b = -1 := by omega
    · simp [InRange, intMin, intMax]
    · simp [ha]
    · rw [Int.tdiv_neg, Int.tdiv_one]
      simp only [InRange, intMin, intMax, and_true] at *
      omega
  -- a divisor beyond one halves the dividend at least
  · have hhalf : (a.tdiv b).natAbs ≤ a.natAbs / 2 := by
      rw [Int.natAbs_tdiv]
      exact Nat.div_le_div_left (by omega) (by decide)
    simp only [InRange, intMin, intMax] at *
    omega

/-! ### The operations -/

/-- A result in range is the value itself. -/
theorem exactly_eq_ok {i : Int} {op : String} (h : InRange i) : exactly i op = .ok (.int i) :=
  if_pos h

/-- A result out of range is an overflow of the named operator. -/
theorem exactly_eq_error {i : Int} {op : String} (h : ¬ InRange i) :
    exactly i op = .error (.overflow op) :=
  if_neg h

/-- **Division and remainder of 64-bit integers fit together.** For a divisor other than zero, both
give a result, except that the quotient of the least integer and minus one overflows. The quotient
is the exact one rounded toward zero; the remainder is smaller than the divisor, and zero or of the
sign of the dividend; and multiplying and adding give the dividend back without an overflow. Nothing
is divided by zero. -/
theorem division_fits_remainder (ha : InRange a) :
    (b ≠ 0 → ¬ (a = intMin ∧ b = -1) → ∃ q r p : Int,
      Arithmetic.div.apply (.int a) (.int b) = .ok (.int q) ∧
      Arithmetic.mod.apply (.int a) (.int b) = .ok (.int r) ∧
      q = towardZero ((a : ℚ) / b) ∧ |r| < |b| ∧ (r = 0 ∨ r.sign = a.sign) ∧
      Arithmetic.mul.apply (.int q) (.int b) = .ok (.int p) ∧
      Arithmetic.add.apply (.int p) (.int r) = .ok (.int a)) ∧
    (a = intMin ∧ b = -1 →
      Arithmetic.div.apply (.int a) (.int b) = .error (.overflow "divide") ∧
      Arithmetic.mod.apply (.int a) (.int b) = .ok (.int 0)) ∧
    (b = 0 →
      Arithmetic.div.apply (.int a) (.int b) = .error (.divisionByZero "divide" "Int") ∧
      Arithmetic.mod.apply (.int a) (.int b)
        = .error (.divisionByZero "take remainder of" "Int")) := by
  have hdiv : b ≠ 0 → Arithmetic.div.ints a b = exactly (quotient a b) "divide" := fun hb =>
    Arithmetic.ints_exact .div fun _ => hb
  have hmod : b ≠ 0 → Arithmetic.mod.ints a b = exactly (remainder a b) "take remainder of" :=
    fun hb => Arithmetic.ints_exact .mod fun _ => hb
  have hrest : InRange (remainder a b) := inRange_remainder ha
  refine ⟨fun hb hne => ?_, ?_, ?_⟩
  · refine ⟨quotient a b, remainder a b, quotient a b * b, ?_, ?_, quotient_eq_towardZero hb,
      abs_remainder_lt hb, sign_remainder a b, ?_, ?_⟩
    · exact (hdiv hb).trans (exactly_eq_ok ((inRange_quotient_iff ha).mpr hne))
    · exact (hmod hb).trans (exactly_eq_ok hrest)
    · exact (Arithmetic.ints_exact .mul nofun).trans (exactly_eq_ok (inRange_product ha))
    · refine (Arithmetic.ints_exact .add nofun).trans ?_
      rw [Arithmetic.onInts, quotient_mul_add_remainder]
      exact exactly_eq_ok ha
  · rintro ⟨rfl, rfl⟩
    refine ⟨(hdiv (by decide)).trans (exactly_eq_error ?_), ?_⟩
    · rw [inRange_quotient_iff ha]
      simp
    · exact (hmod (by decide)).trans (exactly_eq_ok hrest)
  · rintro rfl
    exact ⟨rfl, rfl⟩

/-- The least integer divided by ten, and by minus one. -/
theorem leastInteger_divided :
    InRange intMin ∧
      (∃ q r p : Int, Arithmetic.div.apply (.int intMin) (.int 10) = .ok (.int q) ∧
        Arithmetic.mod.apply (.int intMin) (.int 10) = .ok (.int r) ∧
        q = towardZero ((intMin : ℚ) / (10 : Int)) ∧ |r| < |10| ∧
        (r = 0 ∨ r.sign = intMin.sign) ∧
        Arithmetic.mul.apply (.int q) (.int 10) = .ok (.int p) ∧
        Arithmetic.add.apply (.int p) (.int r) = .ok (.int intMin)) ∧
      Arithmetic.div.apply (.int intMin) (.int (-1)) = .error (.overflow "divide") ∧
      Arithmetic.mod.apply (.int intMin) (.int (-1)) = .ok (.int 0) := by
  have hmin : InRange intMin := by decide
  exact ⟨hmin, (division_fits_remainder hmin).1 (by decide) (by decide),
    (division_fits_remainder hmin).2.1 ⟨rfl, rfl⟩⟩

end Ember
