import DifferentialPrivacy.Accounting.Conversion
import Mathlib.Analysis.Convex.SpecificFunctions.Basic
import Mathlib.Analysis.SpecialFunctions.Trigonometric.DerivHyp

set_option autoImplicit false

/-!
# The loss at an order

In exact numbers the conversion takes the least of the losses at the orders `1 + x`. The slope there is
negative as long as `ρ x²` is less than `l - ln (1 + x)`, and the loss at an order where the two are
nearly the same is nearly the least one. Between neighbours that are close, or that are both on the near
side, the loss does not rise by much.
-/
namespace DifferentialPrivacy

variable {ρ l x y u e : ℝ}

/-- The loss at the order `1 + x`, for `l = ln (1/δ)`. -/
noncomputable def orderLoss (ρ l x : ℝ) : ℝ :=
  (1 + x) * ρ + Real.log (x / (1 + x)) + (l - Real.log (1 + x)) / x

theorem orderLoss_mono {ρ' : ℝ} (hx : 0 ≤ x) (h : ρ ≤ ρ') : orderLoss ρ l x ≤ orderLoss ρ' l x := by
  unfold orderLoss
  have := mul_le_mul_of_nonneg_left h (by linarith : 0 ≤ 1 + x)
  linarith

/-- The logarithm is concave, and `(1 + x) / (1 + y)` lies between one and `x / y`. -/
theorem mul_log_div_le (hx : 0 < x) (hy : 0 < y) :
    y / (1 + y) * Real.log (x / y) ≤ Real.log ((1 + x) / (1 + y)) := by
  have hconcave := strictConcaveOn_log_Ioi.concaveOn.2 (Set.mem_Ioi.mpr (div_pos hx hy))
    (Set.mem_Ioi.mpr one_pos) (by positivity : 0 ≤ y / (1 + y)) (by positivity : 0 ≤ 1 / (1 + y))
    (by field_simp; ring)
  have hmean : y / (1 + y) * (x / y) + 1 / (1 + y) * 1 = (1 + x) / (1 + y) := by
    field_simp
    ring
  rw [smul_eq_mul, smul_eq_mul, smul_eq_mul, smul_eq_mul, Real.log_one, mul_zero, add_zero,
    hmean] at hconcave
  exact hconcave

/-- The difference of the losses at two orders. -/
theorem orderLoss_sub (hx : 0 < x) (hy : 0 < y) : orderLoss ρ l x - orderLoss ρ l y =
    (x - y) * (ρ - (l - Real.log (1 + x)) / (x * y)) +
      (Real.log (x / y) - (1 + 1 / y) * Real.log ((1 + x) / (1 + y))) := by
  unfold orderLoss
  rw [Real.log_div hx.ne' (by positivity), Real.log_div hy.ne' (by positivity),
    Real.log_div hx.ne' hy.ne', Real.log_div (by positivity) (by positivity)]
  field_simp
  ring

theorem orderLoss_sub_le (hx : 0 < x) (hy : 0 < y) : orderLoss ρ l x - orderLoss ρ l y ≤
    (x - y) * (ρ - (l - Real.log (1 + x)) / (x * y)) := by
  have hconcave := mul_log_div_le hx hy
  have hscaled : Real.log (x / y) ≤ (1 + 1 / y) * Real.log ((1 + x) / (1 + y)) := by
    rw [div_mul_eq_mul_div, div_le_iff₀ (by positivity)] at hconcave
    rw [← mul_le_mul_iff_of_pos_left hy]
    refine hconcave.trans_eq ?_
    field_simp
    ring
  rw [orderLoss_sub hx hy]
  linarith

/-! ### Orders where the slope is nearly zero -/

/-- From an order on where the slope is nearly positive, the loss hardly falls. -/
theorem orderLoss_le_of_le (hρ : 0 ≤ ρ) (hx : 0 < x) (hxy : x ≤ y) (he : 0 ≤ e)
    (h : l - Real.log (1 + x) ≤ ρ * x ^ 2 + e) : orderLoss ρ l x ≤ orderLoss ρ l y + e / x := by
  have hy := hx.trans_le hxy
  have hdiff := orderLoss_sub_le (ρ := ρ) (l := l) hx hy
  have hslope : (l - Real.log (1 + x)) / (x * y) ≤ ρ + e / (x * y) := by
    rw [div_le_iff₀ (by positivity), add_mul, div_mul_cancel₀ _ (by positivity)]
    have := mul_le_mul_of_nonneg_left (mul_le_mul_of_nonneg_left hxy hx.le) hρ
    nlinarith
  have hrest : (y - x) * (e / (x * y)) ≤ e / x := by
    rw [div_mul_eq_div_div, mul_div_assoc', div_le_iff₀ hy]
    have := div_nonneg he hx.le
    nlinarith
  have := mul_le_mul_of_nonneg_left hslope (sub_nonneg.mpr hxy)
  linarith

/-- Up to an order where the slope is nearly negative, the loss hardly rises, from half of it on. -/
theorem orderLoss_le_of_half_le (hρ : 0 ≤ ρ) (hy : 0 < y) (hyx : y ≤ x) (hhalf : x ≤ 2 * y)
    (he : 0 ≤ e) (h : ρ * x ^ 2 ≤ l - Real.log (1 + x) + e) :
    orderLoss ρ l x ≤ orderLoss ρ l y + e / x := by
  have hx := hy.trans_le hyx
  have hdiff := orderLoss_sub_le (ρ := ρ) (l := l) hx hy
  generalize l - Real.log (1 + x) = a at h hdiff
  have hnear : (x - y) * (ρ - a / (x * y)) ≤ e / x := by
    rw [← mul_le_mul_iff_of_pos_right (by positivity : 0 < x ^ 2 * y)]
    calc
      (x - y) * (ρ - a / (x * y)) * (x ^ 2 * y) = (x - y) * (ρ * x ^ 2 * y - a * x) := by
        field_simp
      _ ≤ (x - y) * ((a + e) * y - a * x) := by
        apply mul_le_mul_of_nonneg_left _ (sub_nonneg.mpr hyx)
        have := mul_le_mul_of_nonneg_right h hy.le
        linarith
      _ ≤ e * (x - y) * x := by
        have ha : -a ≤ e := by nlinarith [sq_nonneg x]
        have := mul_le_mul_of_nonneg_right ha (sq_nonneg (x - y))
        linarith
      _ ≤ e * y * x := by
        apply mul_le_mul_of_nonneg_right _ hx.le
        exact mul_le_mul_of_nonneg_left (by linarith) he
      _ = e / x * (x ^ 2 * y) := by field_simp
  linarith

/-- Up to an order where the slope is nearly negative, the loss hardly rises. -/
theorem orderLoss_le_of_ge (hρ : 0 ≤ ρ) (hy : 0 < y) (hyx : y ≤ x) (he : 0 ≤ e)
    (h : ρ * x ^ 2 ≤ l - Real.log (1 + x) + e)
    (hsmall : e ≤ 3 / 4 * (ρ * x ^ 2) + x / (2 + 2 * x)) :
    orderLoss ρ l x ≤ orderLoss ρ l y + e / x := by
  rcases le_or_gt x (2 * y) with hhalf | hfar
  · exact orderLoss_le_of_half_le hρ hy hyx hhalf he h
  · have hx := hy.trans_le hyx
    have hmiddle := orderLoss_le_of_half_le (y := x / 2) hρ (by positivity) (by linarith)
      (by linarith) he h
    have hdiff := orderLoss_sub_le (ρ := ρ) (l := l) (by positivity : 0 < x / 2) hy
    -- At half of the order the slope is negative beyond doubt.
    have hslope : ρ * (x / 2 * y) ≤ l - Real.log (1 + x / 2) := by
      have hlog : x / (2 + 2 * x) ≤ Real.log (1 + x) - Real.log (1 + x / 2) := by
        rw [← Real.log_div (by positivity) (by positivity)]
        refine (Real.one_sub_inv_le_log_of_pos (by positivity)).trans' (le_of_eq ?_)
        field_simp
        ring
      have hle : ρ * (x / 2 * y) ≤ ρ * x ^ 2 / 4 := by
        have := mul_le_mul_of_nonneg_left hfar.le (mul_nonneg hρ hx.le)
        linarith
      linarith
    have hfalls : (x / 2 - y) * (ρ - (l - Real.log (1 + x / 2)) / (x / 2 * y)) ≤ 0 := by
      apply mul_nonpos_of_nonneg_of_nonpos (by linarith)
      rw [sub_nonpos, le_div_iff₀ (by positivity)]
      exact hslope
    linarith

/-! ### Neighbours -/

theorem orderLoss_next_sub (hx : 0 < x) (hxy : x ≤ y) : orderLoss ρ l y - orderLoss ρ l x ≤
    (y - x) * (ρ - (l - Real.log (1 + x)) / (x * y)) + (Real.log (y / x) - (y - x) / y) := by
  have hy := hx.trans_le hxy
  have hlog : (y - x) / y ≤ (1 + 1 / y) * Real.log ((1 + y) / (1 + x)) := by
    have hle := mul_le_mul_of_nonneg_left
      (Real.one_sub_inv_le_log_of_pos (by positivity : 0 < (1 + y) / (1 + x)))
      (by positivity : 0 ≤ 1 + 1 / y)
    refine hle.trans' (le_of_eq ?_)
    field_simp
    ring
  have hdiff := orderLoss_sub (ρ := ρ) (l := l) hx hy
  rw [Real.log_div (by positivity) (by positivity)] at hlog
  rw [Real.log_div hx.ne' hy.ne', Real.log_div (by positivity) (by positivity)] at hdiff
  rw [Real.log_div hy.ne' hx.ne']
  linarith

/-- Between close neighbours the loss hardly rises, if the slope is nearly negative at the first. -/
theorem orderLoss_next_le_of_close (hρ : 0 ≤ ρ) (hx : 0 < x) (hxy : x ≤ y)
    (hclose : 32 * (y - x) ≤ x) (he : 0 ≤ e) (h : ρ * x ^ 2 ≤ l - Real.log (1 + x) + e) :
    orderLoss ρ l y ≤ orderLoss ρ l x + (y - x) * ρ + e / x + 1 / 1024 := by
  have hy := hx.trans_le hxy
  have hdiff := orderLoss_next_sub (ρ := ρ) (l := l) hx hxy
  have hslope : -(l - Real.log (1 + x)) / (x * y) ≤ e / (x * y) := by
    apply div_le_div_of_nonneg_right _ (by positivity)
    nlinarith [sq_nonneg x]
  have hscaled := mul_le_mul_of_nonneg_left hslope (sub_nonneg.mpr hxy)
  have hrest : (y - x) * (e / (x * y)) ≤ e / x := by
    rw [div_mul_eq_div_div, mul_div_assoc', div_le_iff₀ hy]
    nlinarith [div_nonneg he hx.le]
  have hlog : Real.log (y / x) - (y - x) / y ≤ 1 / 1024 := by
    have hle := Real.log_le_sub_one_of_pos (div_pos hy hx)
    have hstep : y / x - 1 - (y - x) / y = (y - x) / x * ((y - x) / y) := by
      field_simp
    have hfirst : (y - x) / x ≤ 1 / 32 := by
      rw [div_le_iff₀ hx]
      linarith
    have hsecond : (y - x) / y ≤ 1 / 32 := by
      rw [div_le_iff₀ hy]
      linarith
    have := mul_le_mul hfirst hsecond (div_nonneg (sub_nonneg.mpr hxy) hy.le) (by norm_num)
    linarith
  rw [neg_div] at hscaled
  linarith

/-- Between neighbours that are both on the near side the loss hardly rises. -/
theorem orderLoss_next_le_of_half (hx : 0 < x) (hxy : x ≤ y)
    (h : (y - x) / 2 ≤ l - Real.log (1 + x)) :
    orderLoss ρ l y ≤ orderLoss ρ l x + (y - x) * ρ := by
  have hy := hx.trans_le hxy
  have hdiff := orderLoss_next_sub (ρ := ρ) (l := l) hx hxy
  have hslope := div_le_div_of_nonneg_right h (by positivity : 0 ≤ x * y)
  have hscaled := mul_le_mul_of_nonneg_left hslope (sub_nonneg.mpr hxy)
  have hlog : Real.log (y / x) ≤ (y / x - (y / x)⁻¹) / 2 := by
    rw [← Real.sinh_log (div_pos hy hx)]
    exact Real.self_le_sinh_iff.mpr (Real.log_nonneg ((one_le_div hx).mpr hxy))
  have hexact : (y / x - (y / x)⁻¹) / 2 = (y - x) / y + (y - x) * ((y - x) / 2 / (x * y)) := by
    field_simp
    ring
  linarith

end DifferentialPrivacy
