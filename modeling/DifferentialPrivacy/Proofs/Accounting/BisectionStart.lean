import DifferentialPrivacy.Proofs.Accounting.Bisection
import DifferentialPrivacy.Proofs.Accounting.SlopeError

set_option autoImplicit false

/-!
# The start of the bisection

The upper end of the start is finite unless its first quotient overflows. There the slope is nearly
positive, and the end is not far beyond the order where it is zero.
-/
namespace DifferentialPrivacy

section Start

variable {η τ ρ q w s x α L l : ℝ} (hη0 : 0 < η) (hη : η ≤ 1 / 8388608) (hτ0 : 0 < τ)
  (hτ : 1000 * τ ≤ η ^ 2)
include hη0 hη hτ0 hτ

theorem start_bounds (hw : 0 ≤ w) (hs : |s - w| ≤ 3 * (η * |w| + τ))
    (hα : |α - (2 + s)| ≤ 3 * (η * |2 + s| + τ)) :
    1 / 4 + (1 - 7 * η) * w ≤ α - 1 ∧ α - 1 ≤ 6 / 5 * (1 + w) := by
  have hτη : τ ≤ η := by nlinarith
  rw [abs_of_nonneg hw] at hs
  obtain ⟨hs1, hs2⟩ := abs_le.mp hs
  have hηw := mul_le_mul_of_nonneg_right hη hw
  have hηw0 : 0 ≤ η * w := by positivity
  rw [abs_of_nonneg (by linarith : 0 ≤ 2 + s)] at hα
  obtain ⟨hα1, hα2⟩ := abs_le.mp hα
  have hηs := mul_le_mul_of_nonneg_left hs2 hη0.le
  have hηηw := mul_le_mul_of_nonneg_right hη hηw0
  have hητ := mul_le_mul_of_nonneg_right hη hτ0.le
  constructor <;> linarith

omit hτ hτ0 in
/-- The square of the distance from one to the start is nearly the quotient, or a few of it. -/
theorem sq_bounds_of_start (hq : 0 ≤ q) (hx : 1 / 4 + (1 - 7 * η) * √q ≤ x)
    (hx' : x ≤ 6 / 5 * (1 + √q)) :
    q ≤ x ^ 2 + 14 * (η * q) ∧ 1 / 16 ≤ x ^ 2 ∧ x ^ 2 ≤ 3 * (1 + q) := by
  have hw := Real.sqrt_nonneg q
  have hw2 := Real.sq_sqrt hq
  have hηw := mul_le_mul_of_nonneg_right hη hw
  refine ⟨?_, ?_, ?_⟩
  · have hsq := pow_le_pow_left₀ (by linarith) (by linarith : √q - 7 * (η * √q) ≤ x) 2
    have hexact : (√q - 7 * (η * √q)) ^ 2 = q - 14 * (η * q) + 49 * (η ^ 2 * q) := by
      rw [← hw2, Real.sqrt_sq hw]
      ring
    have : 0 ≤ η ^ 2 * q := by positivity
    linarith
  · have := pow_le_pow_left₀ (by norm_num) (by linarith : 1 / 4 ≤ x) 2
    linarith
  · have hx0 : 0 ≤ x := by nlinarith
    nlinarith [sq_nonneg (1 - √q)]

/-- At the start the slope is nearly positive, and the start is not far off. -/
theorem start_sq_bounds (hρ : 0 < ρ) (hL : 0 ≤ L) (hl : 0 ≤ l) (hLl : |L - l| ≤ 4 * (η * l))
    (hq : 0 ≤ q) (hqL : |q - L / ρ| ≤ 3 * (η * |L / ρ| + τ)) (hx : 1 / 4 + (1 - 7 * η) * √q ≤ x)
    (hx' : x ≤ 6 / 5 * (1 + √q)) :
    l ≤ ρ * x ^ 2 + 30 * (η * (ρ * x ^ 2)) + 5 * (η * l) ∧ ρ * x ^ 2 ≤ 5 * (ρ + l) ∧
      τ * x ^ 2 ≤ 3 * (τ + τ * q) := by
  obtain ⟨hL1, hL2⟩ := abs_le.mp hLl
  obtain ⟨hq1, hq2⟩ := abs_le.mp (abs_quotient_mul_sub_le hρ hqL)
  rw [abs_of_nonneg hL] at hq1 hq2
  obtain ⟨hlower, hquarter, hupper⟩ := sq_bounds_of_start hη0 hη hq hx hx'
  have hηL := mul_le_mul_of_nonneg_right hη hL
  have hηl := mul_le_mul_of_nonneg_right hη hl
  have hτη : τ ≤ 1 / 1000 * η := by nlinarith
  have hτρ : τ * ρ ≤ 1 / 1000 * ρ := mul_le_mul_of_nonneg_right (by linarith) hρ.le
  refine ⟨?_, ?_, ?_⟩
  · have hm0 : 0 ≤ ρ * x ^ 2 := by positivity
    have hρq := mul_le_mul_of_nonneg_left hlower hρ.le
    have hηq := mul_le_mul_of_nonneg_right hη (by positivity : 0 ≤ ρ * q)
    have hηm := mul_le_mul_of_nonneg_left (by linarith : ρ * q ≤ 11 / 10 * (ρ * x ^ 2)) hη0.le
    have hρm : ρ ≤ 16 * (ρ * x ^ 2) := by
      have := mul_le_mul_of_nonneg_left hquarter hρ.le
      linarith
    have hτm : τ * ρ ≤ 1 / 1000 * η * (16 * (ρ * x ^ 2)) :=
      mul_le_mul hτη hρm hρ.le (by positivity)
    have hηLm := mul_le_mul_of_nonneg_left (by linarith : L ≤ 6 / 5 * (ρ * x ^ 2)) hη0.le
    linarith
  · have := mul_le_mul_of_nonneg_left hupper hρ.le
    linarith
  · have := mul_le_mul_of_nonneg_left hupper hτ0.le
    linarith

end Start

open Binary

section Computed

variable {f : Format} {δ ρ : Binary f} {d r : Nat}

/-- The upper end of the start is finite, and nearly two and a root. -/
theorem two_add_sqrt_at {q : Binary f} {p : Nat} (hq : q.At p) (hp : p < f.infinity) :
    ∃ a, (two + q.sqrt).At a ∧ f.one < a ∧ a < f.infinity ∧
      1 / 4 + (1 - 7 * f.precision) * √(q.value : ℝ) ≤ (two + q.sqrt).value - 1 ∧
      ((two + q.sqrt).value - 1 : ℝ) ≤ 6 / 5 * (1 + √(q.value : ℝ)) := by
  obtain ⟨s, hs⟩ := sqrt_at hq
  obtain ⟨a, ha, hle⟩ := two_add_at hs
  have hroot := sqrt_rounds hq hp
  have hrange := f.ten_million_le_range
  have htiny := f.quantum_le_precision.trans f.precision_le
  have hw0 := Real.sqrt_nonneg (q.value : ℝ)
  have hw : √(q.value : ℝ) ≤ f.range / 100 := by
    rw [Real.sqrt_le_left (by linarith)]
    refine (hq.real_value_le hp).trans ?_
    nlinarith
  have hsf := hroot.isFinite (by rw [abs_of_nonneg hw0]; linarith)
  have hnear := hroot.near hsf
  have htwof := (two_at f).isFinite_iff.mpr f.one_add_lt_infinity
  have hsum := (add_roundsClosely htwof hsf).rounds
  rw [value_two, Rat.cast_ofNat] at hsum
  have hfinite := hsum.isFinite (by
    have hs' := hnear
    unfold Format.margin at hs'
    rw [abs_of_nonneg hw0] at hs'
    have := f.precision_mul_le hw0
    rw [abs_le] at hs' ⊢
    constructor <;> linarith)
  have hfraction := twoPow_pos f.fractionBits
  exact ⟨a, ha, by omega, ha.isFinite_iff.mp hfinite, start_bounds f.precision_pos f.precision_le
    f.quantum_pos f.mul_quantum_le hw0 hnear (hsum.near hfinite)⟩

variable [Elementary] (hlib : Elementary.LnAccurate f) (hδ : δ.At d) (hd0 : 0 < d) (hd : d < f.one)
include hlib hδ hd0 hd

/-- The start is finite unless the quotient overflows. -/
theorem start_at (hρ : ρ.At r) (hr0 : 0 < r) (hr : r < f.infinity)
    (hover : (-Elementary.ln δ / ρ).isFinite = true) :
    ∃ a, (bisectionStart ρ (-Elementary.ln δ)).2.At a ∧ f.one < a ∧ a < f.infinity ∧
      ∀ x : ℝ, x = (bisectionStart ρ (-Elementary.ln δ)).2.value - 1 →
        -Real.log δ.value - Real.log (1 + x) ≤ (ρ.value : ℝ) * x ^ 2 +
          slopeError f (-Real.log δ.value) x ∧
        ρ.value * x ^ 2 ≤ 5 * (ρ.value + -Real.log δ.value) ∧
        f.quantum * x ^ 2 ≤ 20 * f.precision := by
  obtain ⟨hLf, hL⟩ := neg_ln_near hδ hd0 hd hlib
  obtain ⟨l, -, hl, hlat, -⟩ := neg_ln_at hlib hδ hd0 hd
  obtain ⟨p, hp⟩ := exists_div_at hlat hρ hr0 hr
  have hpf := hp.isFinite_iff.mp hover
  have hrounds := (div_roundsClosely hLf hρ hr0 hr).rounds.near hover
  obtain ⟨a, ha, ha1, haf, hlow, hhigh⟩ := two_add_sqrt_at hp hpf
  refine ⟨a, ha, ha1, haf, fun x hx => ?_⟩
  change x = (two + (-Elementary.ln δ / ρ).sqrt).value - 1 at hx
  rw [← hx] at hlow hhigh
  have hpos := f.precision_pos
  have hl0 := (neg_log_bounds hδ hd0 hd).1
  have hρ0 : (0 : ℝ) < ρ.value := hρ.real_value_pos hr0
  obtain ⟨hstart, hfar, hquantum⟩ := start_sq_bounds hpos f.precision_le f.quantum_pos
    f.mul_quantum_le hρ0 hlat.real_value_nonneg (by linarith) hL hp.real_value_nonneg hrounds hlow
    hhigh
  refine ⟨?_, hfar, ?_⟩
  · have hw0 := Real.sqrt_nonneg ((-Elementary.ln δ / ρ).value : ℝ)
    have hηw := f.precision_mul_le hw0
    have hg : 0 ≤ Real.log (1 + x) := Real.log_nonneg (by linarith)
    have hηg := mul_nonneg hpos.le hg
    have hηl := mul_nonneg hpos.le (by linarith : 0 ≤ -Real.log δ.value)
    have hτx := mul_nonneg f.quantum_pos.le (sq_nonneg x)
    have hm := mul_nonneg hpos.le (mul_nonneg hρ0.le (sq_nonneg x))
    have hfinal := le_add_of_le_add_mul hpos
      (e := 5 * (f.precision * (-Real.log δ.value + Real.log (1 + x))) +
        4 * (f.quantum * x ^ 2))
      (m := (ρ.value : ℝ) * x ^ 2) (a := -Real.log δ.value - Real.log (1 + x))
      (by linarith) (by linarith)
    unfold slopeError
    linarith
  · have hend := mul_le_mul_of_nonneg_left (hp.real_value_le hpf) f.quantum_pos.le
    linarith [f.quantum_le_precision, f.quantum_mul_range]

theorem start_isFinite_of_le {ρ' : Binary f} {r' : Nat} (hρ : ρ.At r) (hr0 : 0 < r) (hρ' : ρ'.At r')
    (hr' : r' < f.infinity) (hle : r ≤ r') (hover : (-Elementary.ln δ / ρ).isFinite = true) :
    (-Elementary.ln δ / ρ').isFinite = true := by
  obtain ⟨l, hl0, hl, hlat, -⟩ := neg_ln_at hlib hδ hd0 hd
  exact div_isFinite_of_le hlat hl0 hl hρ hr0 hρ' hr' hle hover

theorem start_isFinite (hρ : ρ.At r) (h1 : f.one ≤ r) (hr : r < f.infinity) :
    (-Elementary.ln δ / ρ).isFinite = true := by
  obtain ⟨hLf, hL⟩ := neg_ln_near hδ hd0 hd hlib
  obtain ⟨hl, hl'⟩ := neg_log_bounds hδ hd0 hd
  have hρ1 : (1 : ℝ) ≤ ρ.value := by
    have hle := (one_at f).real_value_mono hρ h1
    rwa [value_one, Rat.cast_one] at hle
  have hr0 : 0 < r := (by cases f <;> decide : 0 < f.one).trans_le h1
  apply (div_roundsClosely hLf hρ hr0 hr).rounds.isFinite
  have hη := f.precision_mul_le (by linarith [f.precision_pos] : 0 ≤ -Real.log δ.value)
  have hsize := abs_sub_abs_le_abs_sub ((-Elementary.ln δ).value : ℝ) (-Real.log δ.value)
  rw [abs_of_nonneg (by linarith [f.precision_pos] : 0 ≤ -Real.log δ.value)] at hsize
  rw [abs_div, abs_of_pos (by linarith : (0 : ℝ) < ρ.value), div_le_iff₀ (by linarith)]
  have := mul_le_mul_of_nonneg_left hρ1 f.range_pos.le
  linarith [f.mul_unitBits_le_range]

/-- For the smallest `ρ` the first quotient overflows, unless `δ` is near to one. -/
theorem start_isInfinite (hρ : ρ.At 1) (hhalf : (δ.value : ℝ) ≤ 1 / 2) :
    (-Elementary.ln δ / ρ).isInfinite = true := by
  obtain ⟨l, -, hlf, hlat, -⟩ := neg_ln_at hlib hδ hd0 hd
  obtain ⟨-, hL⟩ := neg_ln_near hδ hd0 hd hlib
  have h1 : 1 < f.infinity := by cases f <;> decide
  have hfirst : f.units 1 = 1 := by cases f <;> decide
  obtain ⟨q, hq⟩ := exists_div_at hlat hρ Nat.one_pos h1
  rw [hq.isInfinite_iff]
  by_contra hlt
  have hover := div_value_le_overflow hlat hρ hlf Nat.one_pos h1
    (hq.isFinite_iff.mpr (hq.le_infinity.lt_of_ne hlt))
  have hρ1 : (ρ.value : ℝ) = f.quantum := by
    rw [real_value_eq, hρ.units_eq, hfirst, Nat.cast_one, Int.cast_one, one_mul]
  have hl : 1 / 2 ≤ -Real.log δ.value := by
    linarith [Real.log_le_sub_one_of_pos (hδ.real_value_pos hd0)]
  have hη := f.precision_mul_le (by linarith : 0 ≤ -Real.log δ.value)
  rw [hρ1, div_le_iff₀ f.quantum_pos] at hover
  have hend := mul_le_mul_of_nonneg_right f.overflow_le f.quantum_pos.le
  linarith [f.quantum_mul_range, f.precision_le, (abs_le.mp hL).1]

end Computed

end DifferentialPrivacy
