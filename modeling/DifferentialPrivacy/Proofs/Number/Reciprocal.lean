import DifferentialPrivacy.Proofs.Number.DirectedQuotients
import DifferentialPrivacy.Proofs.Number.NearOne

set_option autoImplicit false

/-!
# Reciprocals, rounded down

The remainder of a downward quotient is lost if it is no more than half a unit of the format, and the
result is then above the exact quotient by as little.
-/
namespace DifferentialPrivacy

namespace Binary

variable {f : Format} {x y : Binary f} {p q : Nat}

/-! ### Reciprocals of orders -/

theorem neg_one_lt_neg {y : Binary f} {n : Nat} (hy : y.At n) (hn : n < f.one) :
    (-one).lt (-y) = true := by
  obtain ⟨negative, hle, rfl, hzero⟩ := hy
  cases negative with
  | false => exact decide_eq_true (by omega : -(f.one : ℤ) < -(n : ℤ))
  | true =>
    obtain rfl := hzero rfl
    exact decide_eq_true (by omega : -(f.one : ℤ) < ((0 : ℕ) : ℤ))

section Reciprocal

variable {α : Binary f} {b : Nat} (hα : α.At b) (hb : f.one < b) (hbf : b < f.infinity)
include hα hb hbf

theorem reciprocal_at : ∃ n, (one.divDown α).At n ∧ n < f.one ∧
    (one.divDown α).value * α.value ≤ 1 + f.quantum / 2 ∧
    ∀ r, r ≤ f.infinity → f.units r * f.units b ≤ twoPow f.unitBits * twoPow f.unitBits → r ≤ n := by
  have hwide : f.units (f.one + 1) ≤ f.units b := f.units_strictMono.monotone hb
  have hnext : twoPow f.unitBits + 2 ≤ f.units (f.one + 1) := by
    have htwo : 2 ≤ twoPow (f.fractionBits + 1) := by cases f <;> decide
    rw [f.units_succ, f.units_one]
    exact Nat.add_le_add_left (htwo.trans f.spacing_one.1) _
  have hb0 := Nat.zero_lt_of_lt hb
  have hone0 : 0 < f.one := by cases f <;> decide
  have hnearest : f.nearest (f.units f.one * twoPow f.unitBits) (f.units b) ≤ f.one := by
    apply Format.nearest_le (Format.units_pos hb0)
    exact Nat.mul_le_mul_left _ (by omega)
  have hb0' := Format.units_pos (f := f) hb0
  have hn := (one_at f).divDown_at hα f.one_lt_infinity hb0 hbf
    (hnearest.trans_lt f.one_lt_infinity)
  rw [f.units_one] at hn
  generalize hd : f.downward (twoPow f.unitBits * twoPow f.unitBits) (f.units b) = n at hn
  have hle : 2 * (f.units n * f.units b) ≤
      2 * (twoPow f.unitBits * twoPow f.unitBits) + twoPow f.unitBits :=
    hd ▸ Format.two_mul_units_downward_le hb0'
  refine ⟨n, hn, ?_, ?_, fun r hr h => hd ▸ Format.le_downward hb0' hr h⟩
  · have hunit := twoPow_pos f.unitBits
    rw [← f.units_strictMono.lt_iff_lt, f.units_one]
    by_contra hge
    nlinarith [Nat.mul_le_mul (Nat.not_lt.mp hge) (hnext.trans hwide)]
  · have hunit := f.twoPow_unitBits_mul_quantum
    have hle' : (2 * (f.units n * f.units b) : ℝ) ≤
        2 * (twoPow f.unitBits * twoPow f.unitBits) + twoPow f.unitBits := by exact_mod_cast hle
    have hscaled := mul_le_mul_of_nonneg_right hle' (sq_nonneg f.quantum)
    rw [real_value_eq, real_value_eq, hn.units_eq, hα.units_eq, Int.cast_natCast, Int.cast_natCast]
    have hexact : (2 * (twoPow f.unitBits * twoPow f.unitBits) + twoPow f.unitBits : ℝ) * f.quantum ^ 2 =
        2 * (twoPow f.unitBits * f.quantum) ^ 2 + (twoPow f.unitBits * f.quantum) * f.quantum := by ring
    rw [hexact, hunit] at hscaled
    linarith

section Difference

variable {x y : ℝ} (hx : x = α.value - 1) (hy : y = (one.divDown α).value)
include hx hy

/-- What the remainder may have lost is a small part of the difference. -/
theorem le_one_sub_reciprocal : x / (1 + x) * (1 - f.precision / 2) ≤ 1 - y := by
  obtain ⟨-, -, -, hproduct, -⟩ := reciprocal_at hα hb hbf
  have hαx : (α.value : ℝ) = 1 + x := by rw [hx]; ring
  have hx0 := one_add_precision_le hα hb
  have hpos := f.precision_pos
  have hquantum := f.mul_quantum_le
  rw [← hy, hαx] at hproduct
  rw [hαx] at hx0
  rw [div_mul_eq_mul_div, div_le_iff₀ (by linarith)]
  have : f.precision ^ 2 ≤ f.precision * x := by nlinarith
  linarith [f.quantum_pos]

/-- Next to one the number as far below it as `α` is above is no more than the exact reciprocal, so it
    is no more than the computed one. -/
theorem one_sub_reciprocal_le (hnear : x ≤ 1 / 2) : 1 - y ≤ x := by
  obtain ⟨n, hn, -, -, hgreatest⟩ := reciprocal_at hα hb hbf
  obtain ⟨k, hk, rfl, hvalue⟩ := hα.exists_one_add hb.le (by linarith)
  have hxk : x = k * f.precision := by linarith
  have hkk : k + k ≤ twoPow f.fractionBits := by
    have hreal : (k + k : ℝ) * f.precision ≤ twoPow f.fractionBits * f.precision := by
      linarith [f.precision_mul_twoPow]
    exact_mod_cast le_of_mul_le_mul_right hreal f.precision_pos
  have hroom : f.one - (k + k) ≤ f.infinity := (Nat.sub_le _ _).trans f.one_le_infinity
  have hproduct : f.units (f.one - (k + k)) * f.units (f.one + k) ≤
      twoPow f.unitBits * twoPow f.unitBits := by
    have hbelow := Format.two_mul_units_one_sub hkk
    rw [Nat.add_mul] at hbelow
    rw [Format.units_one_add_of_le hk.le]
    generalize k * f.spacing f.one = c at hbelow
    generalize f.units (f.one - (k + k)) = u at hbelow
    have hunit : twoPow f.unitBits = u + c := by omega
    rw [hunit]
    nlinarith
  have hmono := (positive_at hroom).real_value_mono hn (hgreatest _ hroom hproduct)
  rw [value_one_sub (positive_at hroom) hkk, ← hy] at hmono
  push_cast at hmono
  linarith

/-- Elsewhere the error of the quotient is a small part of the difference. -/
theorem one_sub_reciprocal_le_mul (hfar : 1 / 2048 < x) :
    1 - y ≤ x / (1 + x) * (1001 / 1000) := by
  obtain ⟨n, hn, hn1, -⟩ := reciprocal_at hα hb hbf
  have hαx : (α.value : ℝ) = 1 + x := by rw [hx]; ring
  have hle := f.precision_le
  have hη := f.precision_pos
  have htop := (one_add_precision_le hα hb).trans hαx.le
  have hrounds := divDown_rounds ((one_at f).isFinite_iff.mpr f.one_lt_infinity) hα
    (Nat.zero_lt_of_lt hb) hbf
  have hnear := hrounds.near (hn.isFinite_iff.mpr (hn1.trans f.one_lt_infinity))
  have hquantum := f.mul_quantum_le
  have hτx := mul_le_mul_of_nonneg_right (by nlinarith : f.quantum ≤ 1 / 1000000000)
    (by linarith : 0 ≤ 1 + x)
  unfold Format.margin at hnear
  rw [value_one, Rat.cast_one, hαx, ← hy, abs_of_pos (by positivity : 0 < 1 / (1 + x))] at hnear
  have hlow := mul_le_mul_of_nonneg_right (abs_le.mp hnear).1 (by linarith : 0 ≤ 1 + x)
  have hexact : -(3 * (f.precision * (1 / (1 + x)) + f.quantum)) * (1 + x) =
      -(3 * f.precision) - 3 * (f.quantum * (1 + x)) := by
    field_simp
    ring
  rw [hexact, sub_mul, one_div_mul_cancel (by linarith)] at hlow
  rw [div_mul_eq_mul_div, le_div_iff₀ (by linarith)]
  linarith

theorem log_reciprocal_bounds : f.precision / 2 ≤ 1 - y ∧ 0 ≤ y ∧
    Real.log (x / (1 + x)) - f.precision ≤ Real.log (1 - y) ∧
    Real.log (1 - y) ≤ Real.log (x / (1 + x)) + 1 / 1000 := by
  obtain ⟨n, hn, hn1, -⟩ := reciprocal_at hα hb hbf
  have hpos := f.precision_pos
  have hle := f.precision_le
  have hx0 := one_add_precision_le hα hb
  have htop := value_le_one_sub hn hn1
  rw [← hy] at htop
  have hy0 : 0 ≤ y := hy ▸ hn.real_value_nonneg
  have hfraction : 0 < x / (1 + x) := div_pos (by linarith) (by linarith)
  refine ⟨by linarith, hy0, ?_, ?_⟩
  · have hsmall : 0 < 1 - f.precision / 2 := by linarith
    have hlog := Real.log_le_log (mul_pos hfraction hsmall) (le_one_sub_reciprocal hα hb hbf hx hy)
    rw [Real.log_mul hfraction.ne' hsmall.ne'] at hlog
    have hpart := Real.one_sub_inv_le_log_of_pos hsmall
    have hinv : (1 - f.precision / 2)⁻¹ ≤ 1 + f.precision := by
      rw [inv_le_iff_one_le_mul₀ hsmall]
      nlinarith
    linarith
  · have hy1 : 0 < 1 - y := by linarith
    rcases le_or_gt x (1 / 2048) with hnear | hfar
    · have hlog := Real.log_le_log hy1
        (one_sub_reciprocal_le hα hb hbf hx hy (hnear.trans (by norm_num)))
      have hsum := Real.log_le_sub_one_of_pos (by linarith : 0 < 1 + x)
      rw [Real.log_div (by linarith) (by linarith)]
      linarith
    · have hlog := Real.log_le_log hy1 (one_sub_reciprocal_le_mul hα hb hbf hx hy hfar)
      have hsum := Real.log_le_sub_one_of_pos (by norm_num : (0 : ℝ) < 1001 / 1000)
      rw [Real.log_mul hfraction.ne' (by norm_num)] at hlog
      linarith

end Difference

end Reciprocal
end Binary
end DifferentialPrivacy
