import DifferentialPrivacy.Proofs.Accounting.ConversionOverflow
import DifferentialPrivacy.Proofs.Accounting.SlopeError

set_option autoImplicit false

/-!
# The sign of the computed slope

A computed slope is negative only where the exact one nearly is, and not negative only where the exact
one nearly is not. Beyond the orders whose squares overflow it is never negative, as long as the first
quotient of the conversion does not overflow.
-/
namespace DifferentialPrivacy

open Binary

variable {f : Format} {δ ρ α : Binary f} {d r a : Nat}

/-- The difference is far above the numbers whose squares are lost. -/
theorem precision_pow_four_le_sq {X x : ℝ} (hx : f.precision ≤ x)
    (hnear : |X - x| ≤ 4 * (f.precision * x)) : f.precision ^ 4 ≤ X ^ 2 := by
  have hpos := f.precision_pos
  have hle := f.precision_le
  have hX : f.precision / 2 ≤ X := by
    have := mul_le_mul_of_nonneg_right (hle.trans (by norm_num : _ ≤ (1 : ℝ) / 8)) (hpos.le.trans hx)
    linarith [(abs_le.mp hnear).1]
  calc
    f.precision ^ 4 = f.precision ^ 2 * f.precision ^ 2 := by ring
    _ ≤ f.precision ^ 2 * (1 / 4) := by
      apply mul_le_mul_of_nonneg_left _ (by positivity)
      exact (pow_le_pow_left₀ hpos.le hle 2).trans (by norm_num)
    _ = (f.precision / 2) ^ 2 := by ring
    _ ≤ X ^ 2 := pow_le_pow_left₀ (by positivity) hX 2

section Order

variable (hα : α.At a) (ha : f.one < a) (hai : a < f.infinity)
include hα ha hai

theorem beyond_near : ∃ p, (α - one).At p ∧ 0 < p ∧ p < f.infinity ∧
    |((α - one).value : ℝ) - (α.value - 1)| ≤ 4 * (f.precision * (α.value - 1)) := by
  have hlt := f.units_strictMono ha
  have hfirst : f.units 1 = 1 := by cases f <;> decide
  have hp := sub_at hα (one_at f) hai f.one_lt_infinity hlt.le
  have hpf := (Format.nearest_sub_le (f := f) (p := a) (q := f.one) rfl).trans_lt hai
  have hrounds := sub_rounds (hα.isFinite_iff.mpr hai) ((one_at f).isFinite_iff.mpr f.one_lt_infinity)
  have hle := one_add_precision_le hα ha
  have hpos := f.precision_pos
  rw [value_one, Rat.cast_one] at hrounds
  have hrelative := hrounds.relative (hp.isFinite_iff.mpr hpf)
  rw [abs_of_nonneg (by linarith : (0 : ℝ) ≤ α.value - 1)] at hrelative
  refine ⟨_, hp, ?_, hpf, hrelative (f.precision_pow_four_le.trans (by linarith))⟩
  refine Format.le_nearest Nat.one_pos f.zero_lt_infinity ?_
  change f.units 1 * 1 ≤ _
  omega

theorem divisor_near : ∃ s, ((α - one) * (α - one)).At s ∧ 0 < s ∧
    (((α - one) * (α - one)).isFinite = true →
      |(((α - one) * (α - one)).value : ℝ) - (α.value - 1) ^ 2| ≤
        13 * (f.precision * (α.value - 1) ^ 2)) ∧
    (((α - one) * (α - one)).isFinite = false → f.overflow ≤ ((α - one).value : ℝ) ^ 2) := by
  obtain ⟨p, hp, hp0, hpf, hnear⟩ := beyond_near hα ha hai
  have hs := mul_at hp hp hp0 hp0 hpf hpf
  have hpos := f.precision_pos
  have hle := f.precision_le
  have hx := one_add_precision_le hα ha
  have hsquare : ((α - one).value : ℝ) ^ 2 =
      ((f.units p * f.units p : ℕ) : ℝ) / twoPow f.unitBits * f.quantum := by
    rw [hp.real_value_eq]
    unfold Format.quantum
    push_cast
    ring
  have hX2 : f.precision ^ 4 ≤ ((α - one).value : ℝ) ^ 2 :=
    precision_pow_four_le_sq (by linarith) hnear
  refine ⟨_, hs, ?_, fun hsf => ?_, fun hsi => ?_⟩
  · rw [Nat.pos_iff_ne_zero, ne_eq, Format.nearest_eq_zero_iff (twoPow_pos _)]
    intro hzero
    have hhalf : ((f.units p * f.units p : ℕ) : ℝ) / twoPow f.unitBits ≤ 1 / 2 := by
      rw [div_le_div_iff₀ (real_twoPow_unitBits_pos f) two_pos]
      exact_mod_cast (by omega : f.units p * f.units p * 2 ≤ 1 * twoPow f.unitBits)
    have htiny : f.quantum ≤ f.precision ^ 4 :=
      f.quantum_le.trans (pow_le_pow_of_le_one hpos.le (hle.trans (by norm_num)) (by norm_num))
    have := mul_le_mul_of_nonneg_right hhalf f.quantum_pos.le
    linarith [f.quantum_pos]
  · have hfinite := hp.isFinite_iff.mpr hpf
    have hrelative := (mul_roundsClosely hfinite hfinite).rounds.relative hsf
    rw [← sq, abs_of_nonneg (sq_nonneg _)] at hrelative
    exact abs_square_sub_le hpos hle (by linarith) hnear (hrelative hX2)
  · rw [hsquare]
    apply Format.overflow_le_of_nearest_eq (twoPow_pos _)
    refine hs.le_infinity.eq_of_not_lt fun hlt => ?_
    exact Bool.false_ne_true (hsi.symm.trans (hs.isFinite_iff.mpr hlt))

end Order

section Slope

variable [Elementary] (hlib : Elementary.LnAccurate f) (hδ : δ.At d) (hd0 : 0 < d) (hd : d < f.one)
  (hα : α.At a) (ha : f.one < a) (hai : a < f.infinity)

include hlib hδ hd0 hd hα ha hai

theorem numerator_near : (-Elementary.ln δ - Elementary.ln α).isFinite = true ∧
    |((-Elementary.ln δ - Elementary.ln α).value : ℝ) - (-Real.log δ.value - Real.log α.value)| ≤
      3 * (f.precision * |-Real.log δ.value - Real.log α.value|) +
        9 / 2 * (f.precision * (-Real.log δ.value + Real.log α.value)) := by
  obtain ⟨hLf, hL⟩ := neg_ln_near hδ hd0 hd hlib
  obtain ⟨hGf, hG⟩ := ln_near hα ha hlib hai
  obtain ⟨hlow, hhigh⟩ := neg_log_bounds hδ hd0 hd
  exact difference_near hlow hhigh (half_precision_le_log hα ha)
    (log_value_le hα (Nat.zero_lt_of_lt ha) hai) hL hG (sub_rounds hLf hGf)

theorem abs_numerator_le :
    |((-Elementary.ln δ - Elementary.ln α).value : ℝ)| ≤ 3 * f.unitBits := by
  obtain ⟨-, hN⟩ := numerator_near hlib hδ hd0 hd hα ha hai
  obtain ⟨hlow, hhigh⟩ := neg_log_bounds hδ hd0 hd
  have hpos := f.precision_pos
  have hlow' := half_precision_le_log hα ha
  have hhigh' := log_value_le hα (Nat.zero_lt_of_lt ha) hai
  generalize -Real.log δ.value = l at *
  generalize Real.log (α.value : ℝ) = g at *
  have hab : |l - g| ≤ f.unitBits := by
    rw [abs_le]
    constructor <;> linarith
  have := abs_sub_abs_le_abs_sub ((-Elementary.ln δ - Elementary.ln α).value : ℝ) (l - g)
  have := f.precision_mul_le (abs_nonneg (l - g))
  have := f.precision_mul_le (by linarith : 0 ≤ l + g)
  linarith

omit [Elementary] hlib hδ hd0 hd in
theorem le_divisor (hD : ((α - one) * (α - one)).isFinite = true) :
    f.precision ^ 2 / 2 ≤ ((α - one) * (α - one)).value := by
  obtain ⟨-, -, -, hnear, -⟩ := divisor_near hα ha hai
  have hx := one_add_precision_le hα ha
  have hsq := pow_le_pow_left₀ f.precision_pos.le (by linarith : f.precision ≤ α.value - 1) 2
  have := f.precision_mul_le (sq_nonneg ((α.value : ℝ) - 1))
  linarith [(abs_le.mp (hnear hD)).1, sq_nonneg f.precision]

/-- The quotient is finite, and it is near to the exact one unless its divisor overflows. -/
theorem quotient_near :
    ((-Elementary.ln δ - Elementary.ln α) / ((α - one) * (α - one))).isFinite = true ∧
    (((α - one) * (α - one)).isFinite = true →
      |(((-Elementary.ln δ - Elementary.ln α) / ((α - one) * (α - one))).value : ℝ) -
          (-Elementary.ln δ - Elementary.ln α).value / ((α - one) * (α - one)).value| ≤
        3 * (f.precision * |((-Elementary.ln δ - Elementary.ln α).value : ℝ) /
          ((α - one) * (α - one)).value| + f.quantum)) ∧
    (((α - one) * (α - one)).isFinite = false →
      ((-Elementary.ln δ - Elementary.ln α) / ((α - one) * (α - one))).value = 0) := by
  have hNf := (numerator_near hlib hδ hd0 hd hα ha hai).1
  obtain ⟨s, hs, hs0, -⟩ := divisor_near hα ha hai
  cases hD : ((α - one) * (α - one)).isFinite with
  | false =>
    obtain ⟨sign, hzero⟩ := div_infinity hNf
    have hat := zero_at_of_sign f sign
    obtain rfl : s = f.infinity := hs.le_infinity.eq_of_not_lt fun hlt =>
      Bool.false_ne_true (hD.symm.trans (hs.isFinite_iff.mpr hlt))
    refine ⟨?_, fun h => (by cases h), fun _ => ?_⟩
    · rw [hs.eq_infinity, hzero]
      exact hat.isFinite_iff.mpr f.zero_lt_infinity
    · rw [hs.eq_infinity, hzero, hat.value_eq, f.units_zero, Nat.cast_zero, zero_div]
  | true =>
    have hsf := hs.isFinite_iff.mp hD
    have hrounds := (div_roundsClosely hNf hs hs0 hsf).rounds
    have hfinite := hrounds.isFinite ?_
    · exact ⟨hfinite, fun _ => hrounds.near hfinite, fun h => (by cases h)⟩
    · have hsize := abs_numerator_le hlib hδ hd0 hd hα ha hai
      have hwide := le_divisor hα ha hai hD
      have hbits := f.mul_unitBits_le_mul_range
      have hwide0 : 0 < f.precision ^ 2 / 2 := half_pos (pow_pos f.precision_pos 2)
      rw [abs_div, abs_of_pos (hwide0.trans_le hwide), div_le_iff₀ (hwide0.trans_le hwide)]
      have := mul_le_mul_of_nonneg_left hwide f.range_pos.le
      have : (0 : ℝ) ≤ f.unitBits := Nat.cast_nonneg _
      linarith

theorem slope_lt_zero_iff (hρ : ρ.At r) (hr : r < f.infinity) :
    (epsilonSlope ρ (-Elementary.ln δ) α).lt zero = true ↔
      ρ.value < ((-Elementary.ln δ - Elementary.ln α) / ((α - one) * (α - one))).value := by
  obtain ⟨hfinite, -⟩ := quotient_near hlib hδ hd0 hd hα ha hai
  exact sub_lt_zero_iff (hρ.isFinite_iff.mpr hr) hfinite

/-- Where the computed slope is negative, the exact one nearly is. -/
theorem mul_sq_le_of_slope_neg (hρ : ρ.At r) (hr : r < f.infinity)
    (h : (epsilonSlope ρ (-Elementary.ln δ) α).lt zero = true) :
    (ρ.value : ℝ) * (α.value - 1) ^ 2 ≤ -Real.log δ.value - Real.log α.value +
      slopeError f (-Real.log δ.value) (α.value - 1) := by
  have hlt := (slope_lt_zero_iff hlib hδ hd0 hd hα ha hai hρ hr).mp h
  obtain ⟨-, hN⟩ := numerator_near hlib hδ hd0 hd hα ha hai
  obtain ⟨-, -, -, hnear, -⟩ := divisor_near hα ha hai
  obtain ⟨-, hquotient, hzero⟩ := quotient_near hlib hδ hd0 hd hα ha hai
  have hρ0 : 0 ≤ ρ.value := hρ.value_eq ▸ div_nonneg (Nat.cast_nonneg _) (Nat.cast_nonneg _)
  have hD : ((α - one) * (α - one)).isFinite = true := by
    by_contra hD
    rw [hzero (Bool.eq_false_iff.mpr hD)] at hlt
    exact absurd hlt hρ0.not_gt
  have hx := one_add_precision_le hα ha
  have hpos := f.precision_pos
  have hlow := (neg_log_bounds hδ hd0 hd).1
  have hlow' := half_precision_le_log hα ha
  unfold slopeError
  rw [add_sub_cancel]
  exact mul_sq_le_of_lt_quotient hpos f.precision_le f.quantum_pos (by linarith) (by linarith)
    (hnear hD) hN (hquotient hD) (by exact_mod_cast hρ0) (by exact_mod_cast hlt)

/-- Where the square in the divisor overflows, the exact slope nearly is not negative: `ρ` alone makes
    up for the logarithm of `δ`, as long as their quotient is finite. -/
theorem sub_le_mul_sq_of_overflow (hρ : ρ.At r) (hr0 : 0 < r) (hr : r < f.infinity)
    (hover : (-Elementary.ln δ / ρ).isFinite = true)
    (hD : ((α - one) * (α - one)).isFinite = false) :
    -Real.log δ.value - Real.log α.value ≤ (ρ.value : ℝ) * (α.value - 1) ^ 2 +
      slopeError f (-Real.log δ.value) (α.value - 1) := by
  obtain ⟨-, -, -, -, hend⟩ := divisor_near hα ha hai
  obtain ⟨-, -, -, -, hX⟩ := beyond_near hα ha hai
  obtain ⟨-, hL⟩ := neg_ln_near hδ hd0 hd hlib
  obtain ⟨l, -, hl, hlat, -⟩ := neg_ln_at hlib hδ hd0 hd
  have hx := one_add_precision_le hα ha
  have hpos := f.precision_pos
  have hlow := (neg_log_bounds hδ hd0 hd).1
  have hlow' := half_precision_le_log hα ha
  have hρ1 : (0 : ℝ) < ρ.value := hρ.real_value_pos hr0
  have hratio := div_value_le_overflow hlat hρ hl hr0 hr hover
  have hsquare := abs_square_sub_le (X := (α - one).value) (D := ((α - one).value : ℝ) ^ 2) hpos
    f.precision_le (by linarith) hX (by
      rw [sub_self, abs_zero]
      positivity)
  have hproduct : ((-Elementary.ln δ).value : ℝ) ≤ ρ.value * (α - one).value ^ 2 := by
    rw [div_le_iff₀ hρ1, mul_comm] at hratio
    exact hratio.trans (mul_le_mul_of_nonneg_left (hend hD) hρ1.le)
  have hscaled := mul_le_mul_of_nonneg_left (abs_le.mp hsquare).2 hρ1.le
  have hL1 := (abs_le.mp hL).1
  have hηl : 0 ≤ f.precision * (-Real.log δ.value + Real.log α.value) :=
    mul_nonneg hpos.le (by linarith)
  have hηg := mul_nonneg hpos.le (by linarith : 0 ≤ Real.log α.value)
  have hτx := mul_nonneg f.quantum_pos.le (sq_nonneg ((α.value : ℝ) - 1))
  have hm := mul_nonneg hpos.le (mul_nonneg hρ1.le (sq_nonneg ((α.value : ℝ) - 1)))
  have hfinal := le_add_of_le_add_mul hpos
    (e := 5 * (f.precision * (-Real.log δ.value + Real.log α.value)) +
      4 * (f.quantum * ((α.value : ℝ) - 1) ^ 2))
    (m := (ρ.value : ℝ) * (α.value - 1) ^ 2) (a := -Real.log δ.value - Real.log α.value)
    (by linarith) (by linarith)
  unfold slopeError
  rw [add_sub_cancel]
  linarith

/-- Where the computed slope is not negative, the exact one nearly is not. -/
theorem sub_le_mul_sq_of_slope_nonneg (hρ : ρ.At r) (hr0 : 0 < r) (hr : r < f.infinity)
    (hover : (-Elementary.ln δ / ρ).isFinite = true)
    (h : (epsilonSlope ρ (-Elementary.ln δ) α).lt zero = false) :
    -Real.log δ.value - Real.log α.value ≤ (ρ.value : ℝ) * (α.value - 1) ^ 2 +
      slopeError f (-Real.log δ.value) (α.value - 1) := by
  have hle : ((-Elementary.ln δ - Elementary.ln α) / ((α - one) * (α - one))).value ≤ ρ.value := by
    rw [← not_lt, ← slope_lt_zero_iff hlib hδ hd0 hd hα ha hai hρ hr, h]
    exact Bool.false_ne_true
  cases hD : ((α - one) * (α - one)).isFinite with
  | true =>
    obtain ⟨-, hN⟩ := numerator_near hlib hδ hd0 hd hα ha hai
    obtain ⟨-, -, -, hnear, -⟩ := divisor_near hα ha hai
    obtain ⟨-, hquotient, -⟩ := quotient_near hlib hδ hd0 hd hα ha hai
    have hx := one_add_precision_le hα ha
    have hpos := f.precision_pos
    have hlow := (neg_log_bounds hδ hd0 hd).1
    have hlow' := half_precision_le_log hα ha
    unfold slopeError
    rw [add_sub_cancel]
    exact sub_le_mul_sq_of_quotient_le hpos f.precision_le f.quantum_pos (by linarith) (by linarith)
      (hnear hD) hN (hquotient hD) hρ.real_value_nonneg (by exact_mod_cast hle)
  | false => exact sub_le_mul_sq_of_overflow hlib hδ hd0 hd hα ha hai hρ hr0 hr hover hD

end Slope

end DifferentialPrivacy
