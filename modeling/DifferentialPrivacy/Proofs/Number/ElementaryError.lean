import DifferentialPrivacy.Proofs.Number.NearOne

set_option autoImplicit false

/-!
# The error of logarithms

A logarithm that is right to a unit in the last place is rounded as the operations are. Logarithms of
numbers other than one are not small, so they are off by a part of their size only.
-/
namespace DifferentialPrivacy

namespace Binary

variable {f : Format} {x y z : Binary f} {p : Nat} {v : ℝ}

theorem ulp_le (x : Binary f) : (x.ulp : ℝ) ≤ f.margin x.value := by
  cases x with
  | nan =>
    change ((0 : ℚ) : ℝ) ≤ _
    rw [Rat.cast_zero]
    exact f.margin_nonneg _
  | signed negative p hp =>
    have hquantum := f.quantum_pos
    have hspacing := mul_le_mul_of_nonneg_right (f.real_spacing_le p) hquantum.le
    unfold ulp Format.margin
    rw [real_value_eq, abs_mul, abs_units_signed, abs_of_pos hquantum]
    push_cast
    rw [div_eq_mul_inv]
    change _ * f.quantum ≤ _
    linarith

theorem WithinUlp.roundsClosely (h : x.WithinUlp v) : x.RoundsClosely v := by
  obtain ⟨hfinite, herror⟩ := h
  have hulp := x.ulp_le
  have hsize := abs_sub_abs_le_abs_sub (x.value : ℝ) v
  have hmargin : f.precision * |v| + f.quantum = f.margin v := rfl
  have hnear : |(x.value : ℝ) - v| ≤ 3 / 2 * f.margin v := by
    have hgrow := mul_le_mul_of_nonneg_left hsize f.precision_pos.le
    have hnonneg := abs_nonneg ((x.value : ℝ) - v)
    have hsmall := f.precision_mul_le hnonneg
    change _ ≤ f.precision * |(x.value : ℝ)| + f.quantum at hulp
    linarith
  refine ⟨fun hv => ⟨hfinite, ?_⟩, fun _ => hnear⟩
  obtain ⟨negative, p, hp, hpf, rfl⟩ := exists_signed_of_finite hfinite
  apply nextUp_isFinite
  apply Format.succ_lt_infinity_of_units_le
  have hquantum := f.quantum_pos
  rw [← abs_units_signed negative hp, ← div_inv_eq_mul]
  change _ ≤ _ / f.quantum
  rw [le_div_iff₀ hquantum, ← abs_of_pos hquantum, ← abs_mul, ← real_value_eq]
  have hgrow : f.precision * |v| ≤ 1 / 8388608 * f.range :=
    mul_le_mul f.precision_le hv (abs_nonneg v) (by norm_num)
  have := f.quantum_le_precision.trans f.precision_le
  have := f.one_le_range
  linarith

section Logarithm

variable [Elementary] (hlib : Elementary.LnAccurate f)
include hlib

theorem ln_rounds (hx : x.At p) (hp0 : 0 < p) (hp : p < f.infinity) :
    (Elementary.ln x).Rounds (Real.log x.value) :=
  (hlib.ln x (((zero_at f).lt_iff hx).mpr hp0) (hx.isFinite_iff.mpr hp)).roundsClosely.rounds

theorem lnDown_rounds (hx : x.At p) (hp0 : 0 < p) (hp : p < f.infinity) :
    x.lnDown.Rounds (Real.log x.value) := by
  unfold lnDown
  split
  · rename_i heq
    obtain rfl := (hx.eq_iff (one_at f)).mp heq
    have hvalue : (x.value : ℝ) = 1 := by
      rw [hx.real_value_eq, f.units_one, div_self (real_twoPow_unitBits_pos f).ne']
    rw [hvalue, Real.log_one]
    exact rounds_zero ((zero_at f).isFinite_iff.mpr f.zero_lt_infinity) (value_zero f)
  · have haccurate := hlib.ln x (((zero_at f).lt_iff hx).mpr hp0) (hx.isFinite_iff.mpr hp)
    have h := (haccurate.neg.roundsClosely.nextUp haccurate.neg.1).neg
    rwa [neg_neg] at h

theorem lnOnePlusUp_rounds (hx : (-one).lt x = true) (hfinite : x.isFinite = true) :
    x.lnOnePlusUp.Rounds (Real.log (1 + x.value)) := by
  unfold lnOnePlusUp
  split
  · rename_i hzero
    have hvalue : x.value = 0 := by
      obtain ⟨negative, p, hp, -, rfl⟩ := exists_signed_of_finite hfinite
      obtain rfl : p = 0 := of_decide_eq_true hzero
      rw [(zero_at_of_sign f negative).value_eq, f.units_zero, Nat.cast_zero, zero_div]
    rw [hvalue, Rat.cast_zero, add_zero, Real.log_one]
    exact rounds_zero hfinite hvalue
  · have haccurate := hlib.lnOnePlus x hx hfinite
    exact haccurate.roundsClosely.nextUp haccurate.1

end Logarithm

end Binary

open Binary

variable {f : Format} {δ α : Binary f} {a d : Nat}

section Below

variable (hδ : δ.At d) (hd0 : 0 < d) (hd : d < f.one)
include hδ hd0 hd

theorem neg_log_bounds : f.precision / 2 ≤ -Real.log δ.value ∧ -Real.log δ.value ≤ f.unitBits := by
  refine ⟨?_, neg_log_value_le hδ hd0⟩
  linarith [Real.log_le_sub_one_of_pos (hδ.real_value_pos hd0), value_le_one_sub hδ hd]

theorem neg_ln_near [Elementary] (hlib : Elementary.LnAccurate f) :
    (-Elementary.ln δ).isFinite = true ∧
      |((-Elementary.ln δ).value : ℝ) - -Real.log δ.value| ≤
        4 * (f.precision * -Real.log δ.value) := by
  obtain ⟨p, -, hpf, hp, -⟩ := neg_ln_at hlib hδ hd0 hd
  have hfinite := hp.isFinite_iff.mpr hpf
  have hlow := (neg_log_bounds hδ hd0 hd).1
  have hrelative := (ln_rounds hlib hδ hd0 (hd.trans f.one_lt_infinity)).neg.relative hfinite
  rw [abs_of_nonneg (by linarith [f.precision_pos])] at hrelative
  exact ⟨hfinite, hrelative (f.precision_pow_four_le.trans hlow)⟩

end Below

section Above

variable (hα : α.At a) (ha : f.one < a)
include hα ha

theorem half_precision_le_log : f.precision / 2 ≤ Real.log α.value := by
  have hle := one_add_precision_le hα ha
  have hpos := f.precision_pos
  have hsmall := f.precision_le
  refine le_trans ?_ (Real.one_sub_inv_le_log_of_pos (by linarith))
  rw [le_sub_comm, inv_le_comm₀ (by linarith) (by linarith)]
  refine le_trans ?_ hle
  rw [inv_le_iff_one_le_mul₀ (by linarith)]
  nlinarith

theorem ln_near [Elementary] (hlib : Elementary.LnAccurate f) (hai : a < f.infinity) :
    (Elementary.ln α).isFinite = true ∧
    |((Elementary.ln α).value : ℝ) - Real.log α.value| ≤ 4 * (f.precision * Real.log α.value) := by
  have ha0 := Nat.zero_lt_of_lt ha
  have hlow := half_precision_le_log hα ha
  have hfinite := (hlib.ln α (((zero_at f).lt_iff hα).mpr ha0) (hα.isFinite_iff.mpr hai)).1
  have hrelative := (ln_rounds hlib hα ha0 hai).relative hfinite
  rw [abs_of_nonneg (by linarith [f.precision_pos])] at hrelative
  exact ⟨hfinite, hrelative (f.precision_pow_four_le.trans hlow)⟩

end Above

/-! ### Differences -/

theorem abs_difference_sub_le {η τ l L g G N : ℝ} (hη0 : 0 < η) (hη : η ≤ 1 / 8388608)
    (hl : 0 ≤ l) (hg : 0 ≤ g) (hL : |L - l| ≤ 4 * (η * l))
    (hG : |G - g| ≤ 4 * (η * g)) (hN : |N - (L - G)| ≤ 3 * (η * |L - G| + τ))
    (hτ : 24 * τ ≤ η * (l + g)) :
    |N - (l - g)| ≤ 3 * (η * |l - g|) + 9 / 2 * (η * (l + g)) := by
  have hs : 0 ≤ η * (l + g) := by positivity
  have hdiff : |L - G - (l - g)| ≤ 4 * (η * (l + g)) := by
    have htri := abs_sub (L - l) (G - g)
    have heq : L - G - (l - g) = L - l - (G - g) := by ring
    rw [heq]
    linarith
  have hsize : |L - G| ≤ |l - g| + 4 * (η * (l + g)) := by
    have := abs_sub_abs_le_abs_sub (L - G) (l - g)
    linarith
  have htri := abs_sub_le N (L - G) (l - g)
  have hscaled := mul_le_mul_of_nonneg_left hsize hη0.le
  nlinarith

/-- The difference of two results that are as large as logarithms are. -/
theorem difference_near {x y z : Binary f} {l g : ℝ} (hl : f.precision / 2 ≤ l)
    (hl' : l ≤ f.unitBits) (hg : f.precision / 2 ≤ g) (hg' : g ≤ f.unitBits)
    (hx : |(x.value : ℝ) - l| ≤ 4 * (f.precision * l))
    (hy : |(y.value : ℝ) - g| ≤ 4 * (f.precision * g)) (hz : z.Rounds (x.value - y.value)) :
    z.isFinite = true ∧ |(z.value : ℝ) - (l - g)| ≤
      3 * (f.precision * |l - g|) + 9 / 2 * (f.precision * (l + g)) := by
  have hpos := f.precision_pos
  have hbits := f.mul_unitBits_le_range
  have hl0 : 0 ≤ l := by linarith
  have hg0 : 0 ≤ g := by linarith
  have hfinite : z.isFinite = true := by
    apply hz.isFinite
    have := f.precision_mul_le hl0
    have := f.precision_mul_le hg0
    rw [abs_le] at hx hy ⊢
    constructor <;> linarith
  refine ⟨hfinite, abs_difference_sub_le hpos f.precision_le hl0 hg0 hx hy (hz.near hfinite) ?_⟩
  have := f.mul_quantum_le
  have := mul_le_mul_of_nonneg_left (by linarith : f.precision ≤ l + g) hpos.le
  have := f.quantum_pos
  linarith

end DifferentialPrivacy
