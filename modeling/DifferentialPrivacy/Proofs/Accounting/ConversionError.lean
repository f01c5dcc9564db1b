import DifferentialPrivacy.Proofs.Accounting.OptimalOrder
import DifferentialPrivacy.Proofs.Number.Reciprocal

set_option autoImplicit false

/-!
# The error of the converted loss

The loss at an order is the sum of a product, a logarithm and a quotient. Each of them is off by a part
of its size. The quotient is no larger than the product is, and so the sum is off by a small part of the
product.
-/
namespace DifferentialPrivacy

section Errors

variable {η τ S W A a s x lin lr lr₀ num den t : ℝ} (hη0 : 0 < η) (hη : η ≤ 1 / 8388608)
include hη0 hη

/-- The errors of both parts of the last quotient. -/
theorem abs_quotient_sub_quotient_le (hs : 0 ≤ s) (ha : |a| ≤ s) (hx : 0 < x)
    (hnum : |num - a| ≤ 3 * (η * |a|) + 9 / 2 * (η * s)) (hden : |den - x| ≤ 4 * (η * x)) :
    |num / den - a / x| ≤ 47 / 4 * (η * (s / x)) := by
  obtain ⟨hden1, hden2⟩ := abs_le.mp hden
  have hηx := mul_le_mul_of_nonneg_right hη hx.le
  have hden0 : 0 < den := by linarith
  have hηs : 0 ≤ η * s := by positivity
  have hηa := mul_le_mul_of_nonneg_left ha hη0.le
  rw [div_sub_div _ _ hden0.ne' hx.ne', abs_div, abs_of_pos (mul_pos hden0 hx),
    div_le_iff₀ (mul_pos hden0 hx)]
  have hsplit : num * x - den * a = (num - a) * x - (den - x) * a := by ring
  have hsum : |num * x - den * a| ≤ 23 / 2 * (η * s) * x := by
    rw [hsplit]
    refine (abs_sub _ _).trans ?_
    rw [abs_mul, abs_mul, abs_of_pos hx]
    have h1 := mul_le_mul_of_nonneg_right (by linarith : |num - a| ≤ 15 / 2 * (η * s)) hx.le
    have h2 := mul_le_mul hden ha (abs_nonneg a) (by positivity)
    linarith
  refine hsum.trans ?_
  have hexact : 47 / 4 * (η * (s / x)) * (den * x) = 47 / 4 * (η * s) * den := by
    field_simp
  rw [hexact]
  have := mul_le_mul_of_nonneg_left (by linarith : 99 / 100 * x ≤ den) hηs
  have := mul_nonneg hηs hx.le
  linarith

/-- The errors of the last quotient. -/
theorem abs_tail_sub_le (t τ : ℝ) (hs : 0 ≤ s) (ha : |a| ≤ s) (hx : 0 < x)
    (hnum : |num - a| ≤ 3 * (η * |a|) + 9 / 2 * (η * s)) (hden : |den - x| ≤ 4 * (η * x)) :
    |num / den| ≤ 2 * (s / x) ∧ (|t - num / den| ≤ 3 * (η * |num / den| + τ) →
      |t - a / x| ≤ 15 * (η * (s / x)) + 3 * τ) := by
  have hquotient := abs_quotient_sub_quotient_le hη0 hη hs ha hx hnum hden
  have hW : 0 ≤ s / x := div_nonneg hs hx.le
  have hηW := mul_le_mul_of_nonneg_right hη hW
  have hax : |a / x| ≤ s / x := by
    rw [abs_div, abs_of_pos hx]
    exact div_le_div_of_nonneg_right ha hx.le
  have hsize : |num / den| ≤ 101 / 100 * (s / x) := by
    have := abs_sub_abs_le_abs_sub (num / den) (a / x)
    linarith
  have hscaled := mul_le_mul_of_nonneg_left hsize hη0.le
  have hηW0 := mul_nonneg hη0.le hW
  refine ⟨by linarith, fun ht => ?_⟩
  have htri := abs_sub_le t (num / den) (a / x)
  linarith

variable (hτ0 : 0 < τ) (hτ : 1000 * τ ≤ η ^ 2)
include hτ0 hτ

/-- The errors of the sums. -/
theorem abs_sum_sub_le (s₁ s₂ : ℝ) (hS : 0 ≤ S) (hW : 0 ≤ W) (hA : |A| ≤ W)
    (hlin : |lin - S| ≤ 3 * (η * S + τ)) (hlr : |lr - lr₀| ≤ 3 * (η * |lr₀| + τ))
    (ht : |t - A| ≤ 15 * (η * W) + 3 * τ) :
    |lin + lr| ≤ 2 * (S + |lr₀|) + 1 ∧
    (|s₁ - (lin + lr)| ≤ 3 * (η * |lin + lr| + τ) → |s₁ + t| ≤ 2 * (S + |lr₀| + W) + 1 ∧
      (|s₂ - (s₁ + t)| ≤ 3 * (η * |s₁ + t| + τ) →
        |s₂ - (S + lr₀ + A)| ≤ η * (10 * S + 10 * |lr₀| + 20 * W + 1))) := by
  have hr := abs_nonneg lr₀
  have hηS := mul_le_mul_of_nonneg_right hη hS
  have hηW := mul_le_mul_of_nonneg_right hη hW
  have hηr := mul_le_mul_of_nonneg_right hη hr
  have hηS0 := mul_nonneg hη0.le hS
  have hηW0 := mul_nonneg hη0.le hW
  have hηr0 := mul_nonneg hη0.le hr
  have hτη : τ ≤ 1 / 1000 * (1 / 1000 * η) := by nlinarith
  have hητ := mul_le_mul_of_nonneg_right hη hτ0.le
  have hfirst : |lin + lr - (S + lr₀)| ≤ 3 * (η * S) + 3 * (η * |lr₀|) + 6 * τ := by
    have := abs_add_le (lin - S) (lr - lr₀)
    have heq : lin + lr - (S + lr₀) = lin - S + (lr - lr₀) := by ring
    rw [heq]
    linarith
  have hsize₁ : |lin + lr| ≤ 101 / 100 * (S + |lr₀|) + 6 * τ := by
    have := abs_sub_abs_le_abs_sub (lin + lr) (S + lr₀)
    have := abs_add_le S lr₀
    rw [abs_of_nonneg hS] at this
    linarith
  have hscaled₁ := mul_le_mul_of_nonneg_left hsize₁ hη0.le
  refine ⟨by linarith, fun hs₁ => ?_⟩
  have hsum₁ : |s₁ - (S + lr₀)| ≤ 13 / 2 * (η * S) + 13 / 2 * (η * |lr₀|) + 10 * τ := by
    have := abs_sub_le s₁ (lin + lr) (S + lr₀)
    linarith
  have hsecond : |s₁ + t - (S + lr₀ + A)| ≤
      13 / 2 * (η * S) + 13 / 2 * (η * |lr₀|) + 15 * (η * W) + 13 * τ := by
    have := abs_add_le (s₁ - (S + lr₀)) (t - A)
    have heq : s₁ + t - (S + lr₀ + A) = s₁ - (S + lr₀) + (t - A) := by ring
    rw [heq]
    linarith
  have hsize₂ : |s₁ + t| ≤ 101 / 100 * (S + |lr₀| + W) + 13 * τ := by
    have := abs_sub_abs_le_abs_sub (s₁ + t) (S + lr₀ + A)
    have := abs_add_three S lr₀ A
    rw [abs_of_nonneg hS] at this
    linarith
  have hscaled₂ := mul_le_mul_of_nonneg_left hsize₂ hη0.le
  refine ⟨by linarith, fun hs₂ => ?_⟩
  have := abs_sub_le s₂ (s₁ + t) (S + lr₀ + A)
  linarith

omit hτ0 in
/-- Beside a large product the other parts are small. -/
theorem abs_parts_le (s₁ : ℝ) (hW : 0 ≤ W) (hA : |A| ≤ W) (hlarge : 1000 + 8 * W ≤ S)
    (hlin : |lin - S| ≤ 3 * (η * S + τ)) (hlr₀ : |lr₀| ≤ 54)
    (hlr : |lr - lr₀| ≤ 3 * (η * |lr₀| + τ)) (ht : |t - A| ≤ 15 * (η * W) + 3 * τ) :
    |lr| ≤ lin ∧ (|s₁ - (lin + lr)| ≤ 3 * (η * |lin + lr| + τ) → |t| ≤ s₁) := by
  have hτ1 : τ ≤ 1 := by nlinarith
  have := mul_le_mul_of_nonneg_right hη (by linarith : 0 ≤ S)
  have := mul_le_mul_of_nonneg_right hη hW
  have := mul_le_mul_of_nonneg_right hη (abs_nonneg lr₀)
  have hlrsize := abs_sub_abs_le_abs_sub lr lr₀
  have htsize := abs_sub_abs_le_abs_sub t A
  obtain ⟨hlow, -⟩ := abs_le.mp hlin
  refine ⟨by linarith, fun hs₁ => ?_⟩
  have hneg := neg_abs_le lr
  have hsum : 0 ≤ lin + lr := by linarith
  rw [abs_of_nonneg hsum] at hs₁
  have := mul_le_mul_of_nonneg_right hη hsum
  linarith [(abs_le.mp hs₁).1]

end Errors

open Binary

variable {f : Format} {δ ρ α : Binary f} {a d r : Nat}

/-- A number that is no larger than the one it is added to keeps the order of sums. -/
theorem Binary.addUp_mono_left {x x' y : Binary f} {p p' : Nat} (hx : x.At p) (hx' : x'.At p')
    (h : p ≤ p') (hy : y.isFinite = true) (hsmall : |(y.value : ℝ)| ≤ x.value) :
    ∃ u u', (x.addUp y).At u ∧ (x'.addUp y).At u' ∧ u ≤ u' := by
  obtain ⟨negative, q, hq, hqf, rfl⟩ := exists_signed_of_finite hy
  have hqp : q ≤ p := by
    rw [real_value_eq, real_value_eq, abs_mul, abs_of_pos f.quantum_pos, abs_units_signed,
      hx.units_eq, Int.cast_natCast, mul_le_mul_iff_left₀ f.quantum_pos] at hsmall
    exact f.units_strictMono.le_iff_le.mp (by exact_mod_cast hsmall)
  have hpq := f.units_strictMono.monotone h
  rcases hx'.le_infinity.eq_or_lt with rfl | hpf'
  · have hsum' : x'.addUp (signed negative q hq) = infinity := by
      rw [hx'.eq_infinity, infinity_addUp hy]
    rcases hx.le_infinity.eq_or_lt with rfl | hpf
    · rw [hsum', hx.eq_infinity, infinity_addUp hy]
      exact ⟨_, _, infinity_at f, infinity_at f, le_rfl⟩
    · cases negative with
      | false =>
        obtain ⟨u, hu, -⟩ := addUp_at hx (positive_at hq) hpf hqf
        exact ⟨u, _, hu, hsum' ▸ infinity_at f, hu.le_infinity⟩
      | true =>
        obtain ⟨u, hu, -⟩ := subUp_at hx (positive_at hq) hpf hqf hqp
        exact ⟨u, _, hu, hsum' ▸ infinity_at f, hu.le_infinity⟩
  · have hpf := h.trans_lt hpf'
    cases negative with
    | false =>
      obtain ⟨u, hu, -, hleast⟩ := addUp_at hx (positive_at hq) hpf hqf
      obtain ⟨u', hu', hbound, -⟩ := addUp_at hx' (positive_at hq) hpf' hqf
      refine ⟨u, u', hu, hu', ?_⟩
      rcases hu'.le_infinity.eq_or_lt with rfl | huf
      · exact hu.le_infinity
      · exact hleast u' (by have := hbound huf; omega)
    | true =>
      obtain ⟨u, hu, -, hleast⟩ := subUp_at hx (positive_at hq) hpf hqf hqp
      obtain ⟨u', hu', hbound, -⟩ := subUp_at hx' (positive_at hq) hpf' hqf (hqp.trans h)
      exact ⟨u, u', hu, hu', hleast u' (by omega)⟩

section Order

variable [Elementary] (hlib : Elementary.LnAccurate f) (hα : α.At a) (ha : f.one < a)
  (hai : a < f.infinity)
include hα ha hai

/-! ### The logarithm of the ratio -/

include hlib in
theorem logRatio_near : ∃ v : ℝ,
    Real.log ((α.value - 1) / α.value) - f.precision ≤ v ∧
    v ≤ Real.log ((α.value - 1) / α.value) + 1 / 1000 ∧ |v| ≤ 54 ∧
    (-(one.divDown α)).lnOnePlusUp.isFinite = true ∧
    |((-(one.divDown α)).lnOnePlusUp.value : ℝ) - v| ≤ 3 * (f.precision * |v| + f.quantum) := by
  obtain ⟨n, hn, hn1, -⟩ := reciprocal_at hα ha hai
  obtain ⟨hlow, hy0, hlog, hlog'⟩ := log_reciprocal_bounds hα ha hai rfl rfl
  rw [add_sub_cancel] at hlog hlog'
  have hpos := f.precision_pos
  have hnf := hn.isFinite_iff.mpr (hn1.trans f.one_lt_infinity)
  have hrounds := lnOnePlusUp_rounds hlib (neg_one_lt_neg hn hn1) ((isFinite_neg _).trans hnf)
  rw [value_neg, Rat.cast_neg, ← sub_eq_add_neg] at hrounds
  have hsize : |Real.log (1 - (one.divDown α).value)| ≤ 54 := by
    have hneg := Real.log_nonpos (by linarith : 0 ≤ 1 - ((one.divDown α).value : ℝ)) (by linarith)
    have hmono := Real.log_le_log (by positivity) hlow
    have hbits : (f.fractionBits : ℝ) ≤ 53 := by
      exact_mod_cast (by cases f <;> decide : f.fractionBits ≤ 53)
    have hhalf := Real.log_le_sub_one_of_pos (two_pos : (0 : ℝ) < 2)
    unfold Format.precision at hmono
    rw [Real.log_div (by positivity) two_ne_zero, Real.log_inv] at hmono
    rw [abs_of_nonpos hneg]
    linarith [log_twoPow_le f.fractionBits]
  have hfinite := hrounds.isFinite (hsize.trans (by linarith [f.ten_million_le_range]))
  exact ⟨_, hlog, hlog', hsize, hfinite, hrounds.near hfinite⟩

/-! ### The quotient -/

omit [Elementary] hai in
theorem difference_one_near {D : Binary f} (hx : α.value - 1 ≤ f.range)
    (hD : D.Rounds (α.value - (one : Binary f).value)) (hpos : zero.lt D = true) :
    ∃ q, D.At q ∧ 0 < q ∧ q < f.infinity ∧
      |(D.value : ℝ) - (α.value - 1)| ≤ 4 * (f.precision * (α.value - 1)) := by
  have hle := one_add_precision_le hα ha
  have hη := f.precision_pos
  have hx0 : (0 : ℝ) ≤ α.value - 1 := by linarith
  obtain ⟨q, hq, hq0, rfl⟩ := eq_positive_of_zero_lt hpos
  rw [value_one, Rat.cast_one] at hD
  have hfinite := hD.isFinite (by rwa [abs_of_nonneg hx0])
  have hrelative := hD.relative hfinite
  rw [abs_of_nonneg hx0] at hrelative
  exact ⟨q, positive_at hq, hq0, (positive_at hq).isFinite_iff.mp hfinite,
    hrelative (f.precision_pow_four_le.trans (by linarith))⟩

variable (hδ : δ.At d) (hd0 : 0 < d) (hd : d < f.one)
include hlib hδ hd0 hd

theorem numerator_up_near : ((-δ.lnDown).subUp α.lnDown).isFinite = true ∧
    |(((-δ.lnDown).subUp α.lnDown).value : ℝ) - (-Real.log δ.value - Real.log α.value)| ≤
      3 * (f.precision * |-Real.log δ.value - Real.log α.value|) +
        9 / 2 * (f.precision * (-Real.log δ.value + Real.log α.value)) := by
  obtain ⟨hl, hl'⟩ := neg_log_bounds hδ hd0 hd
  have hg := half_precision_le_log hα ha
  have hg' := log_value_le hα (Nat.zero_lt_of_lt ha) hai
  have hpos := f.precision_pos
  have hbits := f.mul_unitBits_le_range
  have hL := (lnDown_rounds hlib hδ hd0 (hd.trans f.one_lt_infinity)).neg
  have hG := lnDown_rounds hlib hα (Nat.zero_lt_of_lt ha) hai
  have hLf := hL.isFinite (by rw [abs_of_nonneg (by linarith)]; linarith)
  have hGf := hG.isFinite (by rw [abs_of_nonneg (by linarith)]; linarith)
  have hLnear := hL.relative hLf
  have hGnear := hG.relative hGf
  rw [abs_of_nonneg (by linarith)] at hLnear hGnear
  exact difference_near hl hl' hg hg' (hLnear (f.precision_pow_four_le.trans hl))
    (hGnear (f.precision_pow_four_le.trans hg)) (subUp_rounds hLf hGf)

theorem tail_near {D : Binary f} (hx : α.value - 1 ≤ f.range)
    (hD : D.Rounds (α.value - (one : Binary f).value)) (hpos : zero.lt D = true) :
    (((-δ.lnDown).subUp α.lnDown).divUp D).isFinite = true ∧
      |((((-δ.lnDown).subUp α.lnDown).divUp D).value : ℝ) -
          (-Real.log δ.value - Real.log α.value) / (α.value - 1)| ≤
        15 * (f.precision * ((-Real.log δ.value + Real.log α.value) / (α.value - 1))) +
          3 * f.quantum := by
  obtain ⟨hNf, hN⟩ := numerator_up_near hlib hα ha hai hδ hd0 hd
  obtain ⟨q, hq, hq0, hqf, hden⟩ := difference_one_near hα ha hx hD hpos
  obtain ⟨hl, hl'⟩ := neg_log_bounds hδ hd0 hd
  have hg := half_precision_le_log hα ha
  have hg' := log_value_le hα (Nat.zero_lt_of_lt ha) hai
  have hle := one_add_precision_le hα ha
  have hη := f.precision_pos
  have hx0 : (0 : ℝ) < α.value - 1 := by linarith
  have habs : |-Real.log δ.value - Real.log α.value| ≤ -Real.log δ.value + Real.log α.value := by
    rw [abs_le]
    constructor <;> linarith
  obtain ⟨hsize, htail⟩ := abs_tail_sub_le hη f.precision_le
    (((-δ.lnDown).subUp α.lnDown).divUp D).value f.quantum (by linarith) habs hx0 hN hden
  have hrounds := divUp_rounds hNf hq hq0 hqf
  have hfinite := hrounds.isFinite (hsize.trans ?_)
  · exact ⟨hfinite, htail (hrounds.near hfinite)⟩
  · have hbits := f.mul_unitBits_le_mul_range
    have hquotient : (-Real.log δ.value + Real.log α.value) / (α.value - 1) ≤ f.range / 2 := by
      rw [div_le_iff₀ hx0]
      have hscaled := mul_le_mul_of_nonneg_left (by linarith : f.precision ≤ α.value - 1)
        f.range_pos.le
      have hsq : f.precision ^ 2 * f.range ≤ f.range * f.precision := by
        have := f.precision_mul_le (mul_nonneg hη.le f.range_pos.le)
        have := mul_nonneg hη.le f.range_pos.le
        linarith
      have : (0 : ℝ) ≤ f.unitBits := Nat.cast_nonneg _
      linarith
    linarith

/-! ### The sum -/

section Sum

variable (hx : α.value - 1 ≤ f.range)
include hx

/-- What is added to the product does not depend on `ρ`. -/
theorem epsilonAt_eq : ∃ (lr t : Binary f) (v : ℝ),
    (∀ ρ, epsilonAt ρ δ α = ((α.mulUp ρ).addUp lr).addUp t) ∧
    Real.log ((α.value - 1) / α.value) - f.precision ≤ v ∧
    v ≤ Real.log ((α.value - 1) / α.value) + 1 / 1000 ∧ |v| ≤ 54 ∧
    lr.isFinite = true ∧ |(lr.value : ℝ) - v| ≤ 3 * (f.precision * |v| + f.quantum) ∧
    t.isFinite = true ∧
    |(t.value : ℝ) - (-Real.log δ.value - Real.log α.value) / (α.value - 1)| ≤
      15 * (f.precision * ((-Real.log δ.value + Real.log α.value) / (α.value - 1))) +
        3 * f.quantum := by
  obtain ⟨v, hv, hv', hsize, hvf, hvnear⟩ := logRatio_near hlib hα ha hai
  have hαf := hα.isFinite_iff.mpr hai
  have honef := (one_at f).isFinite_iff.mpr f.one_lt_infinity
  refine ⟨_, _, v, fun ρ => rfl, hv, hv', hsize, hvf, hvnear, ?_⟩
  split
  · exact tail_near hlib hα ha hai hδ hd0 hd hx (subDown_rounds hαf honef)
      (zero_lt_subDown_one hα ha)
  · exact tail_near hlib hα ha hai hδ hd0 hd hx (subUp_rounds hαf honef)
      (zero_lt_subUp_one hα ha)

omit [Elementary] hlib hai hx in
theorem abs_quotient_le {x : ℝ} (hx : x = α.value - 1) :
    |(-Real.log δ.value - Real.log α.value) / x| ≤ (-Real.log δ.value + Real.log α.value) / x := by
  have hl := (neg_log_bounds hδ hd0 hd).1
  have hg := half_precision_le_log hα ha
  have hle := one_add_precision_le hα ha
  have hη := f.precision_pos
  rw [abs_div, abs_of_pos (by linarith : 0 < x)]
  apply div_le_div_of_nonneg_right _ (by linarith)
  rw [abs_le]
  constructor <;> linarith

/-- The computed loss is finite unless its parts are large, and it is near to the sum of their exact
    values, with a logarithm of the ratio that is rounded itself. -/
theorem epsilonAt_near (hρ : ρ.At r) (hr : r < f.infinity) {S W : ℝ} (hS : S = α.value * ρ.value)
    (hW : W = (-Real.log δ.value + Real.log α.value) / (α.value - 1)) :
    ∃ v : ℝ, Real.log ((α.value - 1) / α.value) - f.precision ≤ v ∧
      v ≤ Real.log ((α.value - 1) / α.value) + 1 / 1000 ∧ |v| ≤ 54 ∧
      (2 * (S + W) + 109 ≤ f.range → (epsilonAt ρ δ α).isFinite = true) ∧
      ((epsilonAt ρ δ α).isFinite = true → |((epsilonAt ρ δ α).value : ℝ) -
          (S + v + (-Real.log δ.value - Real.log α.value) / (α.value - 1))| ≤
        f.precision * (10 * S + 10 * |v| + 20 * W + 1)) := by
  obtain ⟨lr, t, v, heq, hv, hv', hsize, hvf, hvnear, htf, htnear⟩ :=
    epsilonAt_eq hlib hα ha hai hδ hd0 hd hx
  have hle := one_add_precision_le hα ha
  have hη := f.precision_pos
  have hρ0 : (0 : ℝ) ≤ ρ.value := hρ.real_value_nonneg
  have hS0 : 0 ≤ S := hS ▸ mul_nonneg (by linarith) hρ0
  have hA := abs_quotient_le hα ha hδ hd0 hd rfl
  have hlin := mulUp_rounds (hα.isFinite_iff.mpr hai) (hρ.isFinite_iff.mpr hr)
  rw [← hS] at hlin
  rw [← hW] at hA htnear
  refine ⟨v, hv, hv', hsize, ?_⟩
  rw [heq]
  have hsums (hf : (α.mulUp ρ).isFinite = true) := abs_sum_sub_le hη f.precision_le f.quantum_pos
    f.mul_quantum_le ((α.mulUp ρ).addUp lr).value (((α.mulUp ρ).addUp lr).addUp t).value hS0
    ((abs_nonneg _).trans hA) hA
    (by simpa only [Format.margin, abs_of_nonneg hS0] using hlin.near hf) hvnear htnear
  constructor
  · intro hroom
    have hW0 := (abs_nonneg _).trans hA
    have hf := hlin.isFinite (by rw [abs_of_nonneg hS0]; linarith)
    obtain ⟨hsize₁, hsum⟩ := hsums hf
    have hrounds := addUp_rounds hf hvf
    have hf₁ := hrounds.isFinite (by linarith)
    exact (addUp_rounds hf₁ htf).isFinite (by linarith [(hsum (hrounds.near hf₁)).1])
  · intro hf₂
    have hf₁ := isFinite_of_addUp hf₂
    have hf := isFinite_of_addUp hf₁
    exact ((hsums hf).2 ((addUp_rounds hf hvf).near hf₁)).2 ((addUp_rounds hf₁ htf).near hf₂)

/-- Where the product is far larger than what is added to it, the order of the products is kept. -/
theorem epsilonAt_at_of_large {ρ' : Binary f} {r' : Nat} (hρ : ρ.At r) (hρ' : ρ'.At r')
    (hle : r ≤ r') (hr' : r' < f.infinity)
    (hlarge : 1000 + 8 * ((-Real.log δ.value + Real.log α.value) / (α.value - 1)) ≤
      α.value * ρ.value) :
    ∃ e e', (epsilonAt ρ δ α).At e ∧ (epsilonAt ρ' δ α).At e' ∧ e ≤ e' := by
  obtain ⟨lr, t, v, heq, -, -, hsize, hvf, hvnear, htf, htnear⟩ :=
    epsilonAt_eq hlib hα ha hai hδ hd0 hd hx
  have hA := abs_quotient_le hα ha hδ hd0 hd rfl
  have hW0 := (abs_nonneg _).trans hA
  rw [heq, heq]
  generalize (-Real.log δ.value + Real.log α.value) / (α.value - 1 : ℝ) = W at *
  have hr := hle.trans_lt hr'
  have hproduct := hα.mulUp_at hρ hai hr
  have hproduct' := hα.mulUp_at hρ' hai hr'
  have hmono := Format.upward_mono (f := f) (twoPow_pos f.unitBits)
    (Nat.mul_le_mul_left (f.units a) (f.units_strictMono.monotone hle))
  have hlin := mulUp_rounds (hα.isFinite_iff.mpr hai) (hρ.isFinite_iff.mpr hr)
  generalize f.upward (f.units a * f.units r) (twoPow f.unitBits) = p at hproduct hmono
  generalize f.upward (f.units a * f.units r') (twoPow f.unitBits) = p' at hproduct' hmono
  -- An infinite sum is the same for both.
  have hend {x x' y : Binary f} {q'} (hx : x.At f.infinity) (hx' : x'.At q') (hq : f.infinity ≤ q')
      (hy : y.isFinite = true) : x.addUp y = infinity ∧ x'.addUp y = infinity := by
    obtain rfl := hx'.le_infinity.antisymm hq
    rw [hx.eq_infinity, hx'.eq_infinity, infinity_addUp hy]
    exact ⟨rfl, rfl⟩
  have hinfinity := infinity_at f
  rcases hproduct.le_infinity.eq_or_lt with rfl | hp
  · obtain ⟨hsum, hsum'⟩ := hend hproduct hproduct' hmono hvf
    rw [hsum, hsum', infinity_addUp htf]
    exact ⟨_, _, hinfinity, hinfinity, le_rfl⟩
  · have hlinf := hproduct.isFinite_iff.mpr hp
    have hlinear := hlin.near hlinf
    unfold Format.margin at hlinear
    rw [abs_of_nonneg (by linarith : (0 : ℝ) ≤ α.value * ρ.value)] at hlinear
    obtain ⟨hlr, ht⟩ := abs_parts_le f.precision_pos f.precision_le f.mul_quantum_le
      ((α.mulUp ρ).addUp lr).value hW0 hA hlarge hlinear hsize hvnear htnear
    obtain ⟨u, u', hu, hu', huu⟩ := addUp_mono_left hproduct hproduct' hmono hvf hlr
    rcases hu.le_infinity.eq_or_lt with rfl | huf
    · obtain ⟨hsum, hsum'⟩ := hend hu hu' huu htf
      rw [hsum, hsum']
      exact ⟨_, _, hinfinity, hinfinity, le_rfl⟩
    · exact addUp_mono_left hu hu' huu htf
        (ht ((addUp_rounds hlinf hvf).near (hu.isFinite_iff.mpr huf)))

end Sum

/-! ### At the computed order -/

variable (hρ : ρ.At r) (hr : r < f.infinity)
  (h : NearlyLeast f ρ.value (-Real.log δ.value) (α.value - 1))
include hρ hr h

theorem epsilonAt_isFinite (hsmall : ρ.value ≤ f.range / 64) :
    (epsilonAt ρ δ α).isFinite = true := by
  have hρ0 : (0 : ℝ) ≤ ρ.value := hρ.real_value_nonneg
  obtain ⟨hl, hl'⟩ := neg_log_bounds hδ hd0 hd
  have hl0 : 0 ≤ -Real.log δ.value := by linarith [f.precision_pos]
  obtain ⟨_, -, -, -, hfinite, -⟩ := epsilonAt_near hlib hα ha hai hδ hd0 hd h.le_range hρ hr rfl rfl
  have hproduct := h.product_le hρ0
  have hquotient := h.quotient_le hρ0 hl0
  rw [add_sub_cancel] at hproduct hquotient
  apply hfinite
  linarith [f.mul_unitBits_le_range, f.ten_million_le_range]

/-- The computed loss is near to the exact one at the order. -/
theorem epsilonAt_bounds (hfinite : (epsilonAt ρ δ α).isFinite = true) {S F : ℝ}
    (hS : S = α.value * ρ.value)
    (hF : F = orderLoss ρ.value (-Real.log δ.value) (α.value - 1)) :
    0 ≤ S ∧ S ≤ F + 56 ∧ F - f.precision * (31 * S + 700) ≤ (epsilonAt ρ δ α).value ∧
      (epsilonAt ρ δ α).value ≤ F + 1 / 1000 + f.precision * (31 * S + 700) := by
  have hρ0 : (0 : ℝ) ≤ ρ.value := hρ.real_value_nonneg
  have hl0 : 0 ≤ -Real.log δ.value := by linarith [f.precision_pos, (neg_log_bounds hδ hd0 hd).1]
  obtain ⟨v, hv, hv', hsize, -, hnear⟩ :=
    epsilonAt_near hlib hα ha hai hδ hd0 hd h.le_range hρ hr hS rfl
  have hquotient := h.quotient_le hρ0 hl0
  have hle := one_add_precision_le hα ha
  have hη := f.precision_pos
  have hη' := f.precision_le
  have hx : (0 : ℝ) < α.value - 1 := by linarith
  have hS0 : 0 ≤ S := hS ▸ mul_nonneg (by linarith) hρ0
  rw [add_sub_cancel, ← hS] at hquotient
  unfold orderLoss at hF
  rw [add_sub_cancel, ← hS] at hF
  have hlog : -1 ≤ (-Real.log δ.value - Real.log α.value) / (α.value - 1) := by
    rw [le_div_iff₀ hx]
    linarith [Real.log_le_sub_one_of_pos (by linarith : (0 : ℝ) < α.value)]
  obtain ⟨hlow, hhigh⟩ := abs_le.mp (hnear hfinite)
  obtain ⟨hsize1, hsize2⟩ := abs_le.mp hsize
  have herror := mul_le_mul_of_nonneg_left (by linarith :
    10 * S + 10 * |v| + 20 * ((-Real.log δ.value + Real.log α.value) / (α.value - 1)) + 1 ≤
      31 * S + 690) hη.le
  exact ⟨hS0, by linarith, by linarith, by linarith⟩

end Order

end DifferentialPrivacy
