import DifferentialPrivacy.Proofs.Accounting.BisectionStart
import DifferentialPrivacy.Proofs.Accounting.LossCurve
import DifferentialPrivacy.Proofs.Accounting.SlopeSign

set_option autoImplicit false

/-!
# The loss at the computed order

The bisection ends at neighbours between which the computed slope changes its sign. The exact loss at the
upper one is nearly the least loss at any order of the format. Only next to one, where neighbours are far
apart, it may be less near, and it is negative then.
-/
namespace DifferentialPrivacy

open Binary

variable {f : Format} {δ low α : Binary f} {a d : Nat}

/-! ### Neighbours -/

/-- Next to one, `ln (1/δ)` and `ln (1 + X)` differ by half a precision, or they are nearly the same. -/
theorem grid_cases {η D X l : ℝ} {j k : Nat} (hη : 0 < η) (hD0 : 0 < D) (hD : D = 1 - j * η / 2)
    (hX : X = k * η) (hsmall : X ≤ 1 / 100) (hl : l = -Real.log D) :
    η / 2 ≤ l - Real.log (1 + X) ∨ l - Real.log (1 + X) ≤ 101 / 100 * X ^ 2 := by
  have hX0 : 0 ≤ X := hX ▸ mul_nonneg (Nat.cast_nonneg k) hη.le
  have hproduct : l - Real.log (1 + X) = -Real.log (D * (1 + X)) := by
    rw [Real.log_mul hD0.ne' (by linarith), hl]
    ring
  rw [hproduct]
  rcases Nat.lt_or_ge (2 * k) j with hj | hj
  · left
    have hj' : 2 * X + η ≤ j * η := by
      have hcast : (2 * k + 1 : ℝ) ≤ j := by exact_mod_cast hj
      have := mul_le_mul_of_nonneg_right hcast hη.le
      rw [hX]
      linarith
    have hle : D * (1 + X) ≤ 1 - η / 2 := by
      have := mul_le_mul_of_nonneg_right (by linarith : D ≤ 1 - X - η / 2) (by linarith : 0 ≤ 1 + X)
      nlinarith
    linarith [Real.log_le_sub_one_of_pos (mul_pos hD0 (by linarith : 0 < 1 + X))]
  · right
    have hj' : j * η / 2 ≤ X := by
      have hcast : (j : ℝ) ≤ 2 * k := by exact_mod_cast hj
      have := mul_le_mul_of_nonneg_right hcast hη.le
      rw [hX]
      linarith
    have hge : 1 - X ^ 2 ≤ D * (1 + X) := by
      have := mul_le_mul_of_nonneg_right (by linarith : 1 - X ≤ D) (by linarith : 0 ≤ 1 + X)
      linarith
    have hX2 : X ^ 2 ≤ 1 / 10000 := (pow_le_pow_left₀ hX0 hsmall 2).trans (by norm_num)
    have hpos : 0 < D * (1 + X) := by linarith
    have hlog := Real.one_sub_inv_le_log_of_pos hpos
    have hinv : (D * (1 + X))⁻¹ ≤ 1 + 101 / 100 * X ^ 2 := by
      rw [inv_le_iff_one_le_mul₀ hpos]
      nlinarith [sq_nonneg X]
    linarith

/-- The same for a `δ` of the format: next to one it is on the grid, and elsewhere the logarithms are
    far apart. -/
theorem log_delta_cases (hδ : δ.At d) (hd0 : 0 < d) (hd : d < f.one) {X l : ℝ} {k : Nat} (hk : k < 32)
    (hX : X = k * f.precision) (hl : l = -Real.log δ.value) :
    f.precision / 2 ≤ l - Real.log (1 + X) ∨ l - Real.log (1 + X) ≤ 101 / 100 * X ^ 2 := by
  have hpos := f.precision_pos
  have hle := f.precision_le
  have hδ0 := hδ.real_value_pos hd0
  have hX0 : 0 ≤ X := hX ▸ mul_nonneg (Nat.cast_nonneg k) hpos.le
  have hXhigh : X ≤ 31 * f.precision := by
    have hk31 : (k : ℝ) ≤ 31 := by exact_mod_cast Nat.le_of_lt_succ hk
    exact hX ▸ mul_le_mul_of_nonneg_right hk31 hpos.le
  rcases le_or_gt (f.precision / 2) (l - Real.log (1 + X)) with hfar | hnear
  · exact Or.inl hfar
  · have hhalf : 1 / 2 < (δ.value : ℝ) := by
      have := Real.log_le_sub_one_of_pos hδ0
      have := Real.log_le_sub_one_of_pos (by linarith : 0 < 1 + X)
      linarith
    obtain ⟨j, -, -, hvalue⟩ := hδ.exists_one_sub hd.le hhalf
    exact grid_cases hpos hδ0 hvalue hX (by linarith) hl

/-- From one on, neighbours are a precision of their size apart at most. -/
theorem next_sub_bounds (hlow : low.At a) (hα : α.At (a + 1)) (ha : f.one ≤ a) :
    0 < (α.value - low.value : ℝ) ∧ (α.value - low.value : ℝ) ≤ f.precision * low.value := by
  have hstep : (α.value - low.value : ℝ) = f.spacing a * f.quantum := by
    rw [real_value_eq, real_value_eq, hlow.units_eq, hα.units_eq, f.units_succ]
    push_cast
    ring
  have hnormal : twoPow f.fractionBits ≤ a := le_trans (by cases f <;> decide) ha
  rw [hstep]
  refine ⟨mul_pos (Nat.cast_pos.mpr (f.spacing_pos a)) f.quantum_pos, ?_⟩
  rw [real_value_eq, hlow.units_eq, Int.cast_natCast, ← mul_assoc]
  exact mul_le_mul_of_nonneg_right (Format.real_spacing_le_mul hnormal) f.quantum_pos.le

/-- How far the next order is, beside the order itself and beside what decides the slope. -/
theorem neighbour_cases (hδ : δ.At d) (hd0 : 0 < d) (hd : d < f.one) (hlow : low.At a)
    (hα : α.At (a + 1)) (ha : f.one < a) {X x l : ℝ} (hX : X = low.value - 1) (hx : x = α.value - 1)
    (hl : l = -Real.log δ.value) : X < x ∧ x - X ≤ f.precision * (1 + X) ∧ x ≤ 2 * X ∧
    (32 * (x - X) ≤ X ∨ (x - X) / 2 ≤ l - Real.log (1 + X) ∨
      x ≤ 32 * f.precision ∧ l - Real.log (1 + X) ≤ 101 / 100 * X ^ 2) := by
  have hpos := f.precision_pos
  obtain ⟨hstep, hstep'⟩ := next_sub_bounds hlow hα ha.le
  have hX' : (low.value : ℝ) = 1 + X := by linarith
  rw [hX'] at hstep'
  refine ⟨by linarith, by linarith, ?_⟩
  rcases lt_or_ge (low.value : ℝ) 2 with hnear | hfar
  · obtain ⟨k, hk, rfl, hvalue⟩ := hlow.exists_one_add ha.le hnear
    have hXk : X = k * f.precision := by linarith
    have hdistance : x - X = f.precision := by
      have hnext := value_one_add hα hk
      push_cast at hnext
      linarith
    have hk1 := mul_le_mul_of_nonneg_right (Nat.one_le_cast (α := ℝ).mpr (by omega : 1 ≤ k)) hpos.le
    refine ⟨by linarith, ?_⟩
    rcases Nat.lt_or_ge k 32 with hk32 | hk32
    · have hk31 := mul_le_mul_of_nonneg_right
        (by exact_mod_cast Nat.le_of_lt_succ hk32 : (k : ℝ) ≤ 31) hpos.le
      rw [hdistance]
      exact Or.inr ((log_delta_cases hδ hd0 hd hk32 hXk hl).imp_right fun h => ⟨by linarith, h⟩)
    · have := mul_le_mul_of_nonneg_right (by exact_mod_cast hk32 : (32 : ℝ) ≤ k) hpos.le
      exact Or.inl (by linarith)
  · have := mul_le_mul_of_nonneg_right (f.precision_le.trans (by norm_num : _ ≤ (1 : ℝ) / 64))
      (by linarith : 0 ≤ 1 + X)
    exact ⟨by linarith, Or.inl (by linarith)⟩

section NearOne

variable {ρ l X x : ℝ} (hX : 0 < X) (hη : f.precision ≤ X)
  (hlow : ρ * X ^ 2 ≤ l - Real.log (1 + X) + slopeError f l X)
  (hsmall : l - Real.log (1 + X) ≤ 101 / 100 * X ^ 2)
include hX hη hlow hsmall

/-- Where the logarithms are nearly the same, the slope is only negative for moderate losses. -/
theorem le_of_slope_near_one (hX1 : X ≤ 1 / 262144) : ρ ≤ 111 / 10 := by
  have hX2 : 0 < X ^ 2 := by positivity
  have hlogX := Real.log_le_sub_one_of_pos (by linarith : 0 < 1 + X)
  have hηX := mul_le_mul_of_nonneg_right hη hX.le
  have hηX2 := f.precision_mul_le hX2.le
  have hτX := mul_le_mul_of_nonneg_right f.quantum_le_precision hX2.le
  have habs : l - Real.log (1 + X) + 30 * (f.precision * |l - Real.log (1 + X)|) ≤
      102 / 100 * X ^ 2 := by
    rcases le_or_gt 0 (l - Real.log (1 + X)) with hnonneg | hneg
    · have := f.precision_mul_le hnonneg
      rw [abs_of_nonneg hnonneg]
      linarith
    · have := f.precision_mul_le (neg_nonneg.mpr hneg.le)
      rw [abs_of_neg hneg]
      linarith
  have hsum := mul_le_mul_of_nonneg_left
    (by linarith : l + Real.log (1 + X) ≤ 101 / 100 * X ^ 2 + 2 * X) f.precision_pos.le
  unfold slopeError at hlow
  rw [← mul_le_mul_iff_of_pos_right hX2]
  linarith

/-- There the loss is negative: the logarithm of the order's part above one decides it. -/
theorem orderLoss_le_neg_one (hx : 0 < x) (hXx : X ≤ x) (hnear : x ≤ 32 * f.precision) :
    orderLoss ρ l x ≤ -1 := by
  have hsize : x ≤ 1 / 262144 := hnear.trans (by linarith [f.precision_le])
  have hρ := le_of_slope_near_one hX hη hlow hsmall (hXx.trans hsize)
  have hlog : Real.log (x / (1 + x)) ≤ -(18 * Real.log 2) := by
    rw [← Real.log_rpow two_pos, ← Real.log_inv]
    apply Real.log_le_log (by positivity)
    rw [div_le_iff₀ (by linarith)]
    norm_num
    linarith
  have hfraction : (l - Real.log (1 + x)) / x ≤ 1 / 100 := by
    have hmono := Real.log_le_log (by linarith : 0 < 1 + X) (by linarith : 1 + X ≤ 1 + x)
    rw [div_le_iff₀ hx]
    nlinarith
  have := Real.log_two_gt_d9
  have := mul_le_mul hρ hsize hx.le (by norm_num)
  unfold orderLoss
  linarith

end NearOne

section Neighbours

variable {ρ l X x : ℝ} (hl : 0 ≤ l) (hρ : 0 ≤ ρ) (hx : 0 < x) (hXx : X ≤ x) (hX : 0 < X)
include hl hρ hx hXx hX

/-- The loss hardly rises to the next order, unless it is negative there: so near to one the errors are
    as large as the difference that decides. -/
theorem orderLoss_prev_le
    (hlow : ρ * X ^ 2 ≤ l - Real.log (1 + X) + slopeError f l X) (hη : f.precision ≤ X)
    (hstep : x - X ≤ f.precision * (1 + X))
    (hcases : 32 * (x - X) ≤ X ∨ (x - X) / 2 ≤ l - Real.log (1 + X) ∨
      x ≤ 32 * f.precision ∧ l - Real.log (1 + X) ≤ 101 / 100 * X ^ 2) :
    orderLoss ρ l x ≤ -1 ∨ orderLoss ρ l x ≤
      orderLoss ρ l X + f.precision * (ρ * (1 + x)) + slopeError f l X / X + 1 / 1024 := by
  have herror := slopeError_nonneg (f := f) hl hX.le
  have hquotient := div_nonneg herror hX.le
  have hloss : (x - X) * ρ ≤ f.precision * (ρ * (1 + x)) := by
    have := mul_le_mul_of_nonneg_right hstep hρ
    have := mul_le_mul_of_nonneg_left hXx (mul_nonneg f.precision_pos.le hρ)
    linarith
  rcases hcases with hclose | hhalf | ⟨hnear, hsmall⟩
  · right
    have := orderLoss_next_le_of_close hρ hX hXx hclose herror hlow
    linarith
  · right
    have := orderLoss_next_le_of_half (ρ := ρ) hX hXx hhalf
    linarith
  · exact Or.inl (orderLoss_le_neg_one hX hη hlow hsmall hx hXx hnear)

/-- Up to the errors, no order below has a smaller loss, unless the loss is negative. -/
theorem orderLoss_le_of_below {y : ℝ} (hy : 0 < y) (hyX : y ≤ X)
    (hlow : ρ * X ^ 2 ≤ l - Real.log (1 + X) + slopeError f l X)
    (hhigh : l - Real.log (1 + x) ≤ ρ * x ^ 2 + slopeError f l x)
    (hfar : f.quantum * x ^ 2 ≤ 20 * f.precision) (hη : f.precision ≤ X)
    (hbits : f.precision * Real.log (1 + X) ≤ 1 / 10000)
    (hstep : x - X ≤ f.precision * (1 + X)) (htwice : x ≤ 2 * X)
    (hcases : 32 * (x - X) ≤ X ∨ (x - X) / 2 ≤ l - Real.log (1 + X) ∨
      x ≤ 32 * f.precision ∧ l - Real.log (1 + X) ≤ 101 / 100 * X ^ 2) :
    orderLoss ρ l x ≤ -1 ∨ orderLoss ρ l x ≤
      orderLoss ρ l y + 200 * (f.precision * (ρ * (1 + x))) + 600 * f.precision + 1 / 1024 := by
  have hleast := orderLoss_le_of_ge hρ hy hyX (slopeError_nonneg hl hX.le) hlow
    (slopeError_prev_le hl hρ hx hfar hhigh hXx hX htwice hbits)
  have herror := (div_le_iff₀ hX).mpr (slopeError_prev_le_mul hl hρ hx hfar hhigh hXx hX htwice)
  have := mul_nonneg f.precision_pos.le hρ
  have := mul_nonneg f.precision_pos.le (mul_nonneg hρ hx.le)
  refine (orderLoss_prev_le hl hρ hx hXx hX hlow hη hstep hcases).imp_right fun hnext => ?_
  linarith [f.precision_pos]

omit hXx hX in
/-- Up to the errors, no order above has a smaller loss. -/
theorem orderLoss_le_of_above {y : ℝ} (hxy : x ≤ y)
    (hhigh : l - Real.log (1 + x) ≤ ρ * x ^ 2 + slopeError f l x)
    (hfar : f.quantum * x ^ 2 ≤ 20 * f.precision) : orderLoss ρ l x ≤
      orderLoss ρ l y + 200 * (f.precision * (ρ * (1 + x))) + 600 * f.precision + 1 / 1024 := by
  have hleast := orderLoss_le_of_le hρ hx hxy (slopeError_nonneg hl hx.le) hhigh
  have herror := (div_le_iff₀ hx).mpr (slopeError_le_mul hl hρ hx hfar hhigh)
  have := mul_nonneg f.precision_pos.le hρ
  have := mul_nonneg f.precision_pos.le (mul_nonneg hρ hx.le)
  linarith [f.precision_pos]

end Neighbours

/-! ### The computed order -/

/-- The order `1 + x` has nearly the least loss of all orders of the format, or a negative one. -/
structure NearlyLeast (f : Format) (ρ l x : ℝ) : Prop where
  precision_le : f.precision ≤ x
  far : f.quantum * x ^ 2 ≤ 20 * f.precision
  loss : ρ * x ^ 2 ≤ 5 * (ρ + l)
  slope : l - Real.log (1 + x) ≤ ρ * x ^ 2 + slopeError f l x
  least (β : Binary f) (b : Nat) : β.At b → f.one < b → orderLoss ρ l x ≤ -1 ∨
    orderLoss ρ l x ≤ orderLoss ρ l (β.value - 1) + 200 * (f.precision * (ρ * (1 + x))) +
      600 * f.precision + 1 / 1024

namespace NearlyLeast

variable {ρ l x : ℝ} (h : NearlyLeast f ρ l x)
include h

theorem le_range : x ≤ f.range := by
  have hrange := f.ten_million_le_range
  have hquantum := f.quantum_pos
  by_contra hgt
  have hsq := pow_le_pow_left₀ f.range_pos.le (le_of_not_ge hgt) 2
  have hscaled := mul_le_mul_of_nonneg_left hsq hquantum.le
  have hexact : f.quantum * f.range ^ 2 = f.precision * f.range := by
    rw [sq, ← mul_assoc, f.quantum_mul_range]
  have := mul_le_mul_of_nonneg_left hrange f.precision_pos.le
  linarith [h.far, f.precision_pos]

variable (hρ : 0 ≤ ρ) (hl : 0 ≤ l)
include hρ

theorem product_le : (1 + x) * ρ ≤ 4 * ρ + 5 / 2 * l := by
  have hmean : x ≤ (1 + x ^ 2) / 2 := by linarith [sq_nonneg (1 - x)]
  have := mul_le_mul_of_nonneg_left hmean hρ
  linarith [h.loss]

include hl in
theorem quotient_le : (l + Real.log (1 + x)) / x ≤ 1001 / 1000 * ((1 + x) * ρ) + 3 := by
  have hx : 0 < x := f.precision_pos.trans_le h.precision_le
  have hdelta := log_delta_le hl hρ hx h.slope
  have hquantum := quantum_mul_sq_le h.far hx.le le_rfl
  have hlog := Real.log_le_sub_one_of_pos (by linarith : 0 < 1 + x)
  have := f.precision_mul_le hx.le
  have := mul_nonneg hρ hx.le
  rw [div_le_iff₀ hx]
  linarith

end NearlyLeast

section Computed

variable [Elementary] (hlib : Elementary.LnAccurate f) {ρ : Binary f} {r : Nat} (hδ : δ.At d)
  (hd0 : 0 < d) (hd : d < f.one) (hρ : ρ.At r) (hr0 : 0 < r) (hr : r < f.infinity)
  (hover : (-Elementary.ln δ / ρ).isFinite = true)
include hlib hδ hd0 hd hρ hr0 hr hover

/-- The ends of the bisection: below the computed order the slope is negative up to its error, at the
    order it is not, and the order is no further out than the start. -/
theorem optimalAlpha_neighbours :
    ∃ (low : Binary f) (a : Nat), low.At a ∧ (optimalAlpha ρ (-Elementary.ln δ)).At (a + 1) ∧
      f.one ≤ a ∧ a + 1 < f.infinity ∧
      (f.one < a → ρ.value * (low.value - 1 : ℝ) ^ 2 ≤ -Real.log δ.value - Real.log low.value +
        slopeError f (-Real.log δ.value) (low.value - 1)) ∧
      ∀ x : ℝ, x = (optimalAlpha ρ (-Elementary.ln δ)).value - 1 →
        -Real.log δ.value - Real.log (1 + x) ≤ (ρ.value : ℝ) * x ^ 2 +
          slopeError f (-Real.log δ.value) x ∧
        ρ.value * x ^ 2 ≤ 5 * (ρ.value + -Real.log δ.value) ∧
        f.quantum * x ^ 2 ≤ 20 * f.precision := by
  obtain ⟨b, hstart, hb, hbf, hbounds⟩ := start_at hlib hδ hd0 hd hρ hr0 hr hover
  obtain ⟨hslope₀, hloss₀, hfar₀⟩ := hbounds _ rfl
  have hbrackets : Brackets (bisectionStart ρ (-Elementary.ln δ)) f.one b :=
    ⟨one_at f, hstart, le_rfl, hb⟩
  obtain ⟨low, a, hlow, hα, ha, hab, hneg, hnonneg⟩ := exists_neighbour hbrackets hbf
  have hx := one_add_precision_le hα (by omega)
  have hsq := pow_le_pow_left₀ (by linarith [f.precision_pos])
    (sub_le_sub_right (hα.real_value_mono hstart hab) 1) 2
  refine ⟨low, a, hlow, hα, ha, by omega, fun ha1 => ?_, fun x hx => hx ▸ ⟨?_, ?_, ?_⟩⟩
  · exact mul_sq_le_of_slope_neg hlib hδ hd0 hd hlow ha1 (by omega) hρ hr (hneg.resolve_left ha1.ne')
  · rcases hnonneg with heq | hnonneg
    · rw [heq]
      exact hslope₀
    · rw [add_sub_cancel]
      exact sub_le_mul_sq_of_slope_nonneg hlib hδ hd0 hd hα (by omega) (by omega) hρ hr0 hr hover
        hnonneg
  · exact (mul_le_mul_of_nonneg_left hsq hρ.real_value_nonneg).trans hloss₀
  · exact (mul_le_mul_of_nonneg_left hsq f.quantum_pos.le).trans hfar₀

theorem optimalAlpha_nearlyLeast :
    ∃ b, (optimalAlpha ρ (-Elementary.ln δ)).At b ∧ f.one < b ∧ b < f.infinity ∧
      NearlyLeast f ρ.value (-Real.log δ.value) ((optimalAlpha ρ (-Elementary.ln δ)).value - 1) := by
  obtain ⟨low, a, hlow, hα, ha, haf, hneg, hbounds⟩ :=
    optimalAlpha_neighbours hlib hδ hd0 hd hρ hr0 hr hover
  obtain ⟨hslope, hloss, hfar⟩ := hbounds _ rfl
  generalize optimalAlpha ρ (-Elementary.ln δ) = α at *
  have hρ0 : (0 : ℝ) ≤ ρ.value := hρ.real_value_nonneg
  have hpos := f.precision_pos
  have hl0 : 0 ≤ -Real.log δ.value := by linarith [(neg_log_bounds hδ hd0 hd).1]
  have hx := one_add_precision_le hα (by omega)
  have hx0 : 0 < (α.value - 1 : ℝ) := by linarith
  refine ⟨a + 1, hα, by omega, haf, by linarith, hfar, hloss, hslope, fun β b hβ hb => ?_⟩
  rcases Nat.lt_or_ge a b with hle | hge
  · have hxy := sub_le_sub_right (hα.real_value_mono hβ hle) 1
    exact Or.inr (orderLoss_le_of_above hl0 hρ0 hx0 hxy hslope hfar)
  · have ha1 : f.one < a := hb.trans_le hge
    have hX := one_add_precision_le hlow ha1
    have hy := one_add_precision_le hβ hb
    have hlogX : Real.log low.value = Real.log (1 + (low.value - 1 : ℝ)) := by rw [add_sub_cancel]
    have hbits := (mul_le_mul_of_nonneg_left (log_value_le hlow (Nat.zero_lt_of_lt ha1) (by omega))
      hpos.le).trans f.precision_mul_unitBits_le
    have hneg' := hneg ha1
    rw [hlogX] at hbits hneg'
    obtain ⟨hXx, hstep, htwice, hcases⟩ := neighbour_cases hδ hd0 hd hlow hα ha1 rfl rfl rfl
    exact orderLoss_le_of_below hl0 hρ0 hx0 hXx.le (by linarith) (by linarith)
      (sub_le_sub_right (hβ.real_value_mono hlow hge) 1) hneg' hslope hfar (by linarith) hbits hstep
      htwice hcases

/-- For a `ρ` near the end of the format the slope is nowhere negative, and the order is the first one. -/
theorem optimalAlpha_at_of_large (hlarge : f.range / 64 ≤ ρ.value) :
    (optimalAlpha ρ (-Elementary.ln δ)).At (f.one + 1) := by
  obtain ⟨low, a, hlow, hα, ha, haf, hneg, -⟩ :=
    optimalAlpha_neighbours hlib hδ hd0 hd hρ hr0 hr hover
  rcases ha.eq_or_lt with rfl | ha1
  · exact hα
  · have hslope := hneg ha1
    obtain ⟨hl, hl'⟩ := neg_log_bounds hδ hd0 hd
    have hX := one_add_precision_le hlow ha1
    have hη := f.precision_pos
    have hg : 0 ≤ Real.log low.value := Real.log_nonneg (by linarith)
    have herror := slopeError_le (f := f) (by linarith : 0 ≤ -Real.log δ.value)
      (by linarith : 0 ≤ (low.value - 1 : ℝ))
    rw [add_sub_cancel] at herror
    have hsq := pow_le_pow_left₀ hη.le (by linarith : f.precision ≤ low.value - 1) 2
    have hrange := f.ten_million_le_range
    have hloss := mul_le_mul_of_nonneg_right hlarge (sq_nonneg (low.value - 1 : ℝ))
    have hquantum := mul_le_mul_of_nonneg_right
      (by linarith [f.quantum_le_precision, f.precision_le] : f.quantum ≤ f.range / 1000)
      (sq_nonneg (low.value - 1 : ℝ))
    have := mul_le_mul_of_nonneg_left hsq f.range_pos.le
    have := f.precision_mul_le (by linarith : 0 ≤ -Real.log δ.value + Real.log low.value)
    linarith [f.mul_unitBits_le_mul_range]

end Computed

end DifferentialPrivacy
