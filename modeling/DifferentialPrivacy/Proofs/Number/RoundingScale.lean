import DifferentialPrivacy.Proofs.Number.DirectedBounds
import Mathlib.Analysis.Complex.ExponentialBounds

set_option autoImplicit false

/-!
# The scale of rounding errors

The fraction of a format sets the part of a number that rounding may be off by, and the smallest number
what it may be off by next to zero. Their quotient is a number up to which results stay finite.
-/
namespace DifferentialPrivacy

namespace Format

variable {f : Format} {num den p : Nat} {v : ℝ}

/-- The distance from one to the next number. -/
noncomputable def precision (f : Format) : ℝ := (twoPow f.fractionBits : ℝ)⁻¹

/-- The smallest positive number. -/
noncomputable def quantum (f : Format) : ℝ := (twoPow f.unitBits : ℝ)⁻¹

/-- Twice the error that the nearest number to `v` may have. -/
noncomputable def margin (f : Format) (v : ℝ) : ℝ := f.precision * |v| + f.quantum

/-- Exact results up to here leave room for a step. -/
noncomputable def range (f : Format) : ℝ := f.precision / f.quantum

theorem precision_pos (f : Format) : 0 < f.precision :=
  inv_pos.mpr (Nat.cast_pos.mpr (twoPow_pos _))

theorem quantum_pos (f : Format) : 0 < f.quantum :=
  inv_pos.mpr (Nat.cast_pos.mpr (twoPow_pos _))

theorem precision_le (f : Format) : f.precision ≤ 1 / 8388608 := by
  have hbits : 8388608 ≤ twoPow f.fractionBits := by cases f <;> decide
  unfold precision
  rw [one_div]
  exact inv_anti₀ (by norm_num) (by exact_mod_cast hbits)

theorem precision_mul_le (f : Format) {v : ℝ} (hv : 0 ≤ v) : f.precision * v ≤ 1 / 8388608 * v :=
  mul_le_mul_of_nonneg_right f.precision_le hv

theorem precision_mul_twoPow (f : Format) : f.precision * twoPow f.fractionBits = 1 :=
  inv_mul_cancel₀ (Nat.cast_ne_zero.mpr (twoPow_pos _).ne')

theorem precision_mul_unitBits_le (f : Format) : f.precision * f.unitBits ≤ 1 / 10000 := by
  have hbits : 10000 * f.unitBits ≤ twoPow f.fractionBits := by cases f <;> decide
  unfold precision
  rw [inv_mul_eq_div, div_le_div_iff₀ (Nat.cast_pos.mpr (twoPow_pos _)) (by norm_num), mul_comm,
    one_mul]
  exact_mod_cast hbits

theorem quantum_le (f : Format) : f.quantum ≤ f.precision ^ 6 := by
  have hbits : twoPow f.fractionBits ^ 6 ≤ twoPow f.unitBits := by
    have hexponents : f.fractionBits * 6 ≤ f.unitBits := by cases f <;> decide
    exact (Nat.pow_mul 2 _ 6).ge.trans (Nat.pow_le_pow_right two_pos hexponents)
  have hpos : (0 : ℝ) < twoPow f.fractionBits := Nat.cast_pos.mpr (twoPow_pos _)
  unfold precision quantum
  rw [inv_pow]
  exact inv_anti₀ (by positivity) (by exact_mod_cast hbits)

theorem quantum_le_precision (f : Format) : f.quantum ≤ f.precision := by
  have hpos := f.precision_pos
  have hle := f.precision_le
  refine f.quantum_le.trans (pow_le_of_le_one hpos.le (by linarith) (by norm_num))

theorem mul_quantum_le (f : Format) : 1000 * f.quantum ≤ f.precision ^ 2 := by
  have hpos := f.precision_pos
  have hsmall : f.precision ^ 4 ≤ 1 / 1000 :=
    (pow_le_pow_left₀ hpos.le f.precision_le 4).trans (by norm_num)
  calc
    1000 * f.quantum ≤ 1000 * f.precision ^ 6 := by linarith [f.quantum_le]
    _ = f.precision ^ 2 * (1000 * f.precision ^ 4) := by ring
    _ ≤ f.precision ^ 2 * 1 := mul_le_mul_of_nonneg_left (by linarith) (by positivity)
    _ = f.precision ^ 2 := by ring

/-- What is as large as the parts of the slope are is off by a part of its size only. -/
theorem precision_pow_four_le (f : Format) : f.precision ^ 4 ≤ f.precision / 2 := by
  have hpos := f.precision_pos
  have hcube : f.precision ^ 3 ≤ 1 / 2 :=
    (pow_le_pow_left₀ hpos.le f.precision_le 3).trans (by norm_num)
  calc
    f.precision ^ 4 = f.precision * f.precision ^ 3 := by ring
    _ ≤ f.precision * (1 / 2) := mul_le_mul_of_nonneg_left hcube hpos.le
    _ = f.precision / 2 := by ring

theorem twoPow_unitBits_mul_quantum (f : Format) : (twoPow f.unitBits : ℝ) * f.quantum = 1 :=
  mul_inv_cancel₀ (Nat.cast_ne_zero.mpr (twoPow_pos _).ne')

theorem margin_nonneg (f : Format) (v : ℝ) : 0 ≤ f.margin v := by
  have := f.precision_pos
  have := f.quantum_pos
  unfold margin
  positivity

/-! ### The nearest number -/

/-- From the first normal number on, the spacing is small beside the number. -/
theorem real_spacing_le_mul (h : twoPow f.fractionBits ≤ p) :
    (f.spacing p : ℝ) ≤ f.precision * f.units p := by
  have hwide : (twoPow f.fractionBits * f.spacing p : ℝ) ≤ f.units p := by
    exact_mod_cast spacing_le h
  unfold precision
  rwa [inv_mul_eq_div, le_div_iff₀ (Nat.cast_pos.mpr (twoPow_pos _)), mul_comm]

theorem real_spacing_le (f : Format) (p : Nat) : (f.spacing p : ℝ) ≤ f.precision * f.units p + 1 := by
  rcases Nat.lt_or_ge p (twoPow f.fractionBits) with hp | hp
  · rw [(units_of_lt hp).2, Nat.cast_one]
    exact le_add_of_nonneg_left (mul_nonneg f.precision_pos.le (Nat.cast_nonneg _))
  · linarith [real_spacing_le_mul hp]

/-- The nearest position is off by half a spacing at most. -/
theorem abs_units_nearest_sub_le (hden : 0 < den) (h : f.nearest num den < f.infinity) :
    |(f.units (f.nearest num den) : ℝ) - num / den| ≤ (f.precision * (num / den) + 1) / 2 := by
  have hden' : (0 : ℝ) < den := Nat.cast_pos.mpr hden
  obtain ⟨low, hle, hlt, hcases⟩ := f.nearest_halves num hden
  have hle' : (f.units low : ℝ) ≤ num / den := by
    rw [le_div_iff₀ hden']
    exact_mod_cast hle
  have hspacing := f.real_spacing_le low
  have hscaled := mul_le_mul_of_nonneg_left hle' f.precision_pos.le
  rw [f.units_succ] at hcases hlt
  rcases hcases with ⟨hn, hmiddle⟩ | ⟨hn, hmiddle⟩
  · obtain rfl : low = f.nearest num den := by omega
    have hmiddle' : 2 * (num / den : ℝ) ≤ 2 * f.units (f.nearest num den) +
        f.spacing (f.nearest num den) := by
      rw [mul_div_assoc', div_le_iff₀ hden']
      norm_cast
      refine hmiddle.trans_eq ?_
      ring
    rw [abs_le]
    constructor <;> linarith
  · have hsucc : f.nearest num den = low + 1 := by omega
    have hmiddle' : 2 * (f.units low : ℝ) + f.spacing low ≤ 2 * (num / den) := by
      rw [mul_div_assoc', le_div_iff₀ hden']
      norm_cast
      refine Eq.trans_le ?_ hmiddle
      ring
    have hlt' : (num / den : ℝ) < f.units low + f.spacing low := by
      rw [div_lt_iff₀ hden']
      exact_mod_cast hlt
    rw [hsucc, f.units_succ, Nat.cast_add, abs_le]
    constructor <;> linarith

/-! ### The end of the format -/

theorem range_pos (f : Format) : 0 < f.range := div_pos f.precision_pos f.quantum_pos

theorem quantum_mul_range (f : Format) : f.quantum * f.range = f.precision :=
  mul_div_cancel₀ _ f.quantum_pos.ne'

theorem one_le_range (f : Format) : 1 ≤ f.range :=
  (one_le_div f.quantum_pos).mpr f.quantum_le_precision

/-- The range is beyond all logarithms, also in units that are the square of the precision. -/
theorem mul_unitBits_le_mul_range (f : Format) :
    100000 * (f.unitBits : ℝ) ≤ f.precision ^ 2 * f.range := by
  have hbits : 100000 * f.unitBits * twoPow f.fractionBits ^ 3 ≤ twoPow f.unitBits := by
    have hunitBits : 100000 * f.unitBits ≤ twoPow 27 := by cases f <;> decide
    have hexponents : 27 + f.fractionBits * 3 ≤ f.unitBits := by cases f <;> decide
    calc
      _ ≤ twoPow 27 * twoPow f.fractionBits ^ 3 := Nat.mul_le_mul_right _ hunitBits
      _ = twoPow 27 * twoPow (f.fractionBits * 3) := congrArg (twoPow 27 * ·) (Nat.pow_mul 2 _ 3).symm
      _ = twoPow (27 + f.fractionBits * 3) := (twoPow_add _ _).symm
      _ ≤ twoPow f.unitBits := twoPow_le_twoPow hexponents
  have hfraction : (0 : ℝ) < twoPow f.fractionBits := Nat.cast_pos.mpr (twoPow_pos _)
  have hexact : f.precision ^ 2 * f.range = twoPow f.unitBits / (twoPow f.fractionBits : ℝ) ^ 3 := by
    unfold range precision quantum
    field_simp
  rw [hexact, le_div_iff₀ (by positivity)]
  exact_mod_cast hbits

theorem mul_unitBits_le_range (f : Format) : 100000 * (f.unitBits : ℝ) ≤ f.range := by
  have hsquare : f.precision ^ 2 ≤ 1 :=
    pow_le_one₀ f.precision_pos.le (f.precision_le.trans (by norm_num))
  have := mul_le_mul_of_nonneg_right hsquare f.range_pos.le
  linarith [f.mul_unitBits_le_mul_range]

theorem ten_million_le_range (f : Format) : 10000000 ≤ f.range := by
  have hbits : 100 ≤ f.unitBits := by cases f <;> decide
  have hbits' : (100 : ℝ) ≤ f.unitBits := by exact_mod_cast hbits
  linarith [f.mul_unitBits_le_range]

theorem range_mul_twoPow_unitBits (f : Format) :
    f.range * twoPow f.unitBits * twoPow f.fractionBits =
      (twoPow f.unitBits * twoPow f.unitBits : Nat) := by
  have hfraction : (twoPow f.fractionBits : ℝ) ≠ 0 := Nat.cast_ne_zero.mpr (twoPow_pos _).ne'
  unfold range precision quantum
  rw [div_inv_eq_mul, inv_mul_eq_div, mul_right_comm, div_mul_cancel₀ _ hfraction, Nat.cast_mul]

theorem two_mul_range_eq (f : Format) :
    2 * f.range * twoPow f.unitBits = f.units (f.infinity - twoPow f.fractionBits) := by
  have hend : f.units (f.infinity - twoPow f.fractionBits) * twoPow f.fractionBits =
      2 * (twoPow f.unitBits * twoPow f.unitBits) := by
    have hbits := f.fractionBits_le_unitBits
    have hplace : f.infinity - twoPow f.fractionBits =
        (2 * (f.unitBits - f.fractionBits) + 1 + 1) * twoPow f.fractionBits := by
      rw [infinity_eq, Nat.succ_mul, Nat.add_sub_cancel]
    rw [hplace, units_mul_twoPow, ← twoPow_add, ← twoPow_add, Nat.mul_comm 2 (twoPow _), ← twoPow_succ]
    exact congrArg twoPow (by omega)
  have hfraction : (twoPow f.fractionBits : ℝ) ≠ 0 := Nat.cast_ne_zero.mpr (twoPow_pos _).ne'
  rw [← mul_left_inj' hfraction, mul_assoc 2, mul_assoc 2, range_mul_twoPow_unitBits]
  exact_mod_cast hend.symm

theorem four_mul_range_eq (f : Format) :
    4 * f.range * twoPow f.unitBits = f.units f.infinity := by
  have hend : f.units f.infinity * twoPow f.fractionBits =
      4 * (twoPow f.unitBits * twoPow f.unitBits) := by
    have hbits := f.fractionBits_le_unitBits
    have hsum : 2 * f.unitBits + 2 - f.fractionBits + f.fractionBits =
        f.unitBits + f.unitBits + 1 + 1 := by omega
    rw [units_infinity, ← twoPow_add, ← twoPow_add, hsum, twoPow_succ, twoPow_succ]
    ring
  have hfraction : (twoPow f.fractionBits : ℝ) ≠ 0 := Nat.cast_ne_zero.mpr (twoPow_pos _).ne'
  rw [← mul_left_inj' hfraction, mul_assoc 4, mul_assoc 4, range_mul_twoPow_unitBits]
  exact_mod_cast hend.symm

/-- Twice the range is a number of the format, and many follow. -/
theorem succ_lt_infinity_of_units_le (h : (f.units p : ℝ) ≤ 2 * f.range * twoPow f.unitBits) :
    p + 1 < f.infinity := by
  have hroom : twoPow f.fractionBits < f.infinity := by cases f <;> decide
  have hlarge : 1 < twoPow f.fractionBits := by cases f <;> decide
  rw [f.two_mul_range_eq] at h
  have hle : p ≤ f.infinity - twoPow f.fractionBits :=
    f.units_strictMono.le_iff_le.mp (by exact_mod_cast h)
  omega

theorem nearest_succ_lt_infinity (hden : 0 < den)
    (h : (num / den : ℝ) ≤ f.range * twoPow f.unitBits) : f.nearest num den + 1 < f.infinity := by
  have hroom : twoPow f.fractionBits < f.infinity := by cases f <;> decide
  have hlarge : 1 < twoPow f.fractionBits := by cases f <;> decide
  have hunit : (0 : ℝ) < twoPow f.unitBits := Nat.cast_pos.mpr (twoPow_pos _)
  have hdouble : (num / den : ℝ) ≤ 2 * f.range * twoPow f.unitBits := by
    have := mul_pos f.range_pos hunit
    linarith
  rw [f.two_mul_range_eq, div_le_iff₀ (Nat.cast_pos.mpr hden)] at hdouble
  have hle := nearest_le (f := f) hden (by exact_mod_cast hdouble)
  omega

/-- Exact results from here on are rounded to infinity. -/
noncomputable def overflow (f : Format) : ℝ :=
  (f.units (f.infinity - 1) + f.units f.infinity) / 2 * f.quantum

theorem overflow_le (f : Format) : f.overflow ≤ 4 * f.range := by
  have hlast : (f.units (f.infinity - 1) : ℝ) ≤ f.units f.infinity :=
    Nat.cast_le.mpr (f.units_strictMono.monotone (Nat.sub_le _ _))
  have hunit : (twoPow f.unitBits : ℝ) * f.quantum = 1 :=
    mul_inv_cancel₀ (Nat.cast_ne_zero.mpr (twoPow_pos _).ne')
  have hscaled := mul_le_mul_of_nonneg_right
    (by linarith : (f.units (f.infinity - 1) + f.units f.infinity : ℝ) / 2 ≤ f.units f.infinity)
    f.quantum_pos.le
  refine hscaled.trans_eq ?_
  rw [← f.four_mul_range_eq, mul_assoc, hunit, mul_one]

theorem overflow_le_of_nearest_eq {num den : Nat} (hden : 0 < den)
    (h : f.nearest num den = f.infinity) : f.overflow ≤ num / den * f.quantum := by
  refine mul_le_mul_of_nonneg_right ?_ f.quantum_pos.le
  rw [div_le_div_iff₀ two_pos (Nat.cast_pos.mpr hden)]
  have hnat : (f.units (f.infinity - 1) + f.units f.infinity) * den ≤ num * 2 := by
    obtain ⟨low, hle, -, ⟨hn, -⟩ | ⟨hn, hmiddle⟩⟩ := f.nearest_halves num hden
    · have hlow : f.units f.infinity ≤ f.units low := f.units_strictMono.monotone (by omega)
      have hlast : f.units (f.infinity - 1) ≤ f.units f.infinity :=
        f.units_strictMono.monotone (Nat.sub_le _ _)
      have := Nat.mul_le_mul_right den
        (by omega : f.units (f.infinity - 1) + f.units f.infinity ≤ 2 * f.units low)
      linarith
    · have hlow : f.units (f.infinity - 1) ≤ f.units low := f.units_strictMono.monotone (by omega)
      have hnext : f.units f.infinity ≤ f.units (low + 1) := f.units_strictMono.monotone (by omega)
      have := Nat.mul_le_mul_right den (Nat.add_le_add hlow hnext)
      linarith
  exact_mod_cast hnat

theorem le_overflow_of_nearest_lt {num den : Nat} (hden : 0 < den)
    (h : f.nearest num den < f.infinity) : num / den * f.quantum ≤ f.overflow := by
  refine mul_le_mul_of_nonneg_right ?_ f.quantum_pos.le
  rw [div_le_div_iff₀ (Nat.cast_pos.mpr hden) two_pos]
  have hnat : num * 2 ≤ (f.units (f.infinity - 1) + f.units f.infinity) * den := by
    obtain ⟨low, -, hlt, ⟨hn, hmiddle⟩ | ⟨hn, -⟩⟩ := f.nearest_halves num hden
    · have hlow : f.units low ≤ f.units (f.infinity - 1) := f.units_strictMono.monotone (by omega)
      have hnext : f.units (low + 1) ≤ f.units f.infinity := f.units_strictMono.monotone (by omega)
      have := Nat.mul_le_mul_right den (Nat.add_le_add hlow hnext)
      linarith
    · have hlow : f.units (low + 1) ≤ f.units (f.infinity - 1) := f.units_strictMono.monotone (by omega)
      have hlast : f.units (f.infinity - 1) ≤ f.units f.infinity :=
        f.units_strictMono.monotone (Nat.sub_le _ _)
      have := Nat.mul_le_mul_right den
        (by omega : 2 * f.units (low + 1) ≤ f.units (f.infinity - 1) + f.units f.infinity)
      linarith
  exact_mod_cast hnat

end Format

end DifferentialPrivacy
