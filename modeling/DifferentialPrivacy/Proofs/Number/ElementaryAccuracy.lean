import DifferentialPrivacy.Number.Elementary
import DifferentialPrivacy.Proofs.Number.LeastBounds
import DifferentialPrivacy.Proofs.Number.NumberLine
import Mathlib.Analysis.SpecialFunctions.Pow.Real

set_option autoImplicit false

/-!
# The accuracy of elementary functions

A library is accurate if its logarithms differ from the exact ones by no more than one unit in the last
place. Away from zero such a result has the sign of the exact one, and a step up makes it a bound. The
exact functions cut off to the format are such a library.
-/
namespace DifferentialPrivacy

namespace Binary

variable {f : Format} {x y : Binary f} {p : Nat} {v : ℝ}

/-- A unit in the last place: the distance to the next number away from zero. -/
def ulp : Binary f → ℚ
  | nan => 0
  | signed _ p _ => f.spacing p / twoPow f.unitBits

/-- `x` is a finite number no more than one unit in its last place away from `v`. -/
def WithinUlp (x : Binary f) (v : ℝ) : Prop := x.isFinite = true ∧ |(x.value : ℝ) - v| ≤ x.ulp

theorem value_neg (x : Binary f) : (-x).value = -x.value := by
  unfold value
  rw [units_neg, Int.cast_neg, neg_div]

theorem WithinUlp.neg (h : x.WithinUlp v) : (-x).WithinUlp (-v) := by
  obtain ⟨hfinite, herror⟩ := h
  have hulp : (-x).ulp = x.ulp := by cases x <;> rfl
  refine ⟨(isFinite_neg x).trans hfinite, ?_⟩
  rw [value_neg, hulp, Rat.cast_neg, ← neg_add', abs_neg, ← sub_eq_add_neg]
  exact herror

theorem real_twoPow_unitBits_pos (f : Format) : (0 : ℝ) < twoPow f.unitBits :=
  Nat.cast_pos.mpr (twoPow_pos _)

theorem withinUlp_iff {negative : Bool} {hp : p ≤ f.infinity} :
    (signed negative p hp).WithinUlp v ↔ p < f.infinity ∧
      |((signed negative p hp).units : ℝ) - v * twoPow f.unitBits| ≤ f.spacing p := by
  have hunit := real_twoPow_unitBits_pos f
  refine and_congr decide_eq_true_iff ?_
  unfold value ulp
  dsimp only
  push_cast
  rw [div_sub' hunit.ne', abs_div, abs_of_pos hunit, div_le_div_iff_of_pos_right hunit, mul_comm v]

/-- A result that is more than a unit of the format away from zero has the sign of the exact one. -/
theorem WithinUlp.exists_at (h : x.WithinUlp v) (hv : 1 < v * twoPow f.unitBits) :
    ∃ p, 0 < p ∧ p < f.infinity ∧ x.At p ∧ v * twoPow f.unitBits ≤ f.units p + f.spacing p ∧
      f.units p ≤ v * twoPow f.unitBits + f.spacing p := by
  obtain ⟨negative, p, hp, -, rfl⟩ := exists_signed_of_finite h.1
  obtain ⟨hpf, herror⟩ := withinUlp_iff.mp h
  obtain ⟨hlow, hhigh⟩ := abs_sub_le_iff.mp herror
  have hsmall : (f.spacing p : ℝ) ≤ 1 ∨ (f.spacing p : ℝ) ≤ f.units p := by
    rcases f.spacing_le_one_or p with hone | hwide
    · exact Or.inl (by exact_mod_cast hone.le)
    · exact Or.inr (by exact_mod_cast (Nat.le_mul_of_pos_left _ (twoPow_pos _)).trans hwide)
  have hnonneg : (0 : ℝ) ≤ f.units p := Nat.cast_nonneg _
  cases negative with
  | false =>
    have hunits : ((signed false p hp).units : ℝ) = f.units p := Int.cast_natCast _
    rw [hunits] at hlow hhigh
    refine ⟨p, Nat.pos_of_ne_zero ?_, hpf, positive_at hp, by linarith, by linarith⟩
    rintro rfl
    have hfirst : f.spacing 0 = 1 := by cases f <;> decide
    rw [hfirst, f.units_zero, Nat.cast_zero, Nat.cast_one] at hhigh
    linarith
  | true =>
    have hunits : ((signed true p hp).units : ℝ) = -f.units p := by
      change ((-(f.units p : Int) : Int) : ℝ) = _
      push_cast
      rfl
    rw [hunits] at hhigh
    rcases hsmall with hone | hwide <;> linarith

end Binary

/-- Logarithms are accurate to one unit in the last place, and that of infinity is infinity. -/
structure Elementary.LnAccurate [Elementary] (f : Format) : Prop where
  ln (x : Binary f) : Binary.zero.lt x = true → x.isFinite = true →
    (Elementary.ln x).WithinUlp (Real.log x.value)
  ln_infinity : Elementary.ln (Binary.infinity : Binary f) = .infinity
  lnOnePlus (x : Binary f) : (-Binary.one).lt x = true → x.isFinite = true →
    (Elementary.lnOnePlus x).WithinUlp (Real.log (1 + x.value))

namespace Binary

variable {f : Format} {x y : Binary f} {p q : Nat}

theorem At.real_value_eq (h : x.At q) : (x.value : ℝ) = f.units q / twoPow f.unitBits := by
  rw [h.value_eq]
  push_cast
  rfl

theorem At.real_value_nonneg (h : x.At q) : (0 : ℝ) ≤ x.value := by
  rw [h.real_value_eq]
  positivity

theorem At.real_value_pos (h : x.At q) (hq : 0 < q) : (0 : ℝ) < x.value := by
  rw [h.real_value_eq]
  exact div_pos (Nat.cast_pos.mpr (Format.units_pos hq)) (real_twoPow_unitBits_pos f)

theorem At.real_value_mono (hx : x.At p) (hy : y.At q) (h : p ≤ q) : (x.value : ℝ) ≤ y.value :=
  Rat.cast_le.mpr ((hx.value_le_iff hy).mpr h)

theorem log_twoPow_le (n : Nat) : Real.log (twoPow n) ≤ n := by
  change Real.log ((2 ^ n : ℕ) : ℝ) ≤ _
  rw [Nat.cast_pow, Real.log_pow]
  refine mul_le_of_le_one_right (Nat.cast_nonneg _) ?_
  exact (Real.log_le_sub_one_of_pos (by norm_num)).trans (by norm_num)

/-- The logarithm of a finite number is small. -/
theorem log_value_le (hx : x.At q) (h0 : 0 < q) (hq : q < f.infinity) :
    Real.log x.value ≤ f.unitBits := by
  have hend : f.units f.infinity ≤ twoPow f.unitBits * twoPow f.unitBits := by
    rw [Format.units_infinity, ← twoPow_add]
    exact twoPow_le_twoPow (by cases f <;> decide)
  refine (Real.log_le_log (hx.real_value_pos h0) ?_).trans (log_twoPow_le f.unitBits)
  rw [hx.real_value_eq, div_le_iff₀ (real_twoPow_unitBits_pos f)]
  exact_mod_cast (f.units_strictMono hq).le.trans hend

/-- A result that is as small as logarithms are is far from the end of the format. -/
theorem succ_lt_infinity {v : ℝ} {p : Nat} (hv : v ≤ f.unitBits) (hpf : p < f.infinity)
    (hp : f.units p ≤ v * twoPow f.unitBits + f.spacing p) : p + 1 < f.infinity := by
  have hunit := real_twoPow_unitBits_pos f
  by_contra hend
  obtain rfl : p = f.infinity - 1 := by omega
  have hlast : (f.unitBits * twoPow f.unitBits + f.spacing (f.infinity - 1) : ℝ) <
      f.units (f.infinity - 1) := by
    have hnat : f.unitBits * twoPow f.unitBits + f.spacing (f.infinity - 1) <
        f.units (f.infinity - 1) := by cases f <;> decide +kernel
    exact_mod_cast hnat
  have hscaled := mul_le_mul_of_nonneg_right hv hunit.le
  linarith

theorem neg_log_value_le (hx : x.At q) (h0 : 0 < q) : -Real.log x.value ≤ f.unitBits := by
  have hunit := real_twoPow_unitBits_pos f
  have hpos : (1 : ℝ) ≤ f.units q := Nat.one_le_cast.mpr (Format.units_pos h0)
  rw [hx.real_value_eq, Real.log_div (by positivity) hunit.ne', neg_sub]
  have := Real.log_nonneg hpos
  linarith [log_twoPow_le f.unitBits]

section Accurate

variable [Elementary] (hlib : Elementary.LnAccurate f) (hx : x.At q)
include hlib hx

/-- The logarithm of a number below one is negative by more than a unit of the format. -/
theorem neg_ln_at (h0 : 0 < q) (h1 : q < f.one) :
    ∃ p, 0 < p ∧ p < f.infinity ∧ (-Elementary.ln x).At p ∧
      -Real.log x.value * twoPow f.unitBits ≤ f.units p + f.spacing p ∧
      f.units p ≤ -Real.log x.value * twoPow f.unitBits + f.spacing p := by
  have hunit := real_twoPow_unitBits_pos f
  have hbelow : (f.units q : ℝ) + 1 ≤ twoPow f.unitBits := by
    have hlt := f.units_strictMono h1
    rw [f.units_one] at hlt
    exact_mod_cast hlt
  have haccurate := hlib.ln x (((zero_at f).lt_iff hx).mpr h0)
    (hx.isFinite_iff.mpr (h1.trans f.one_lt_infinity))
  refine haccurate.neg.exists_at ?_
  have hlog : Real.log x.value < x.value - 1 := by
    apply Real.log_lt_sub_one_of_pos (hx.real_value_pos h0)
    rw [hx.real_value_eq, ne_eq, div_eq_one_iff_eq hunit.ne']
    linarith
  have hscaled := mul_lt_mul_of_pos_right hlog hunit
  rw [hx.real_value_eq, sub_mul, div_mul_cancel₀ _ hunit.ne', one_mul, ← hx.real_value_eq] at hscaled
  linarith

theorem ln_at (h1 : f.one < q) (hq : q < f.infinity) :
    ∃ p, 0 < p ∧ p < f.infinity ∧ (Elementary.ln x).At p ∧
      Real.log x.value * twoPow f.unitBits ≤ f.units p + f.spacing p ∧
      f.units p ≤ Real.log x.value * twoPow f.unitBits + f.spacing p := by
  have hunit := real_twoPow_unitBits_pos f
  have habove : (twoPow f.unitBits : ℝ) + 4 ≤ f.units q := by
    have hle : f.units (f.one + 1) ≤ f.units q := f.units_strictMono.monotone h1
    have hstep : twoPow f.unitBits + 4 ≤ f.units (f.one + 1) := by
      have hfour : 4 ≤ twoPow (f.fractionBits + 1) := by cases f <;> decide
      rw [f.units_succ, f.units_one]
      exact Nat.add_le_add_left (hfour.trans f.spacing_one.1) _
    exact_mod_cast hstep.trans hle
  have hlarge : (4 : ℝ) ≤ twoPow f.unitBits := by
    have hunits : twoPow 2 ≤ twoPow f.unitBits :=
      twoPow_le_twoPow (by cases f <;> decide)
    exact_mod_cast hunits
  refine (hlib.ln x (((zero_at f).lt_iff hx).mpr (Nat.zero_lt_of_lt h1))
    (hx.isFinite_iff.mpr hq)).exists_at ?_
  have hpos : (0 : ℝ) < f.units q := by linarith
  have hlog := Real.one_sub_inv_le_log_of_pos (hx.real_value_pos (Nat.zero_lt_of_lt h1))
  refine LT.lt.trans_le ?_ (mul_le_mul_of_nonneg_right hlog hunit.le)
  rw [hx.real_value_eq, inv_div, sub_mul, one_mul, div_mul_eq_mul_div, lt_sub_iff_add_lt,
    ← lt_sub_iff_add_lt', div_lt_iff₀ hpos]
  nlinarith

/-- A step up from the logarithm is a bound on the exact one, and it is not infinite. -/
theorem lnUp_at (h1 : f.one ≤ q) (hq : q < f.infinity) : ∃ l, x.lnUp.At l ∧ l < f.infinity ∧
    (0 < l ↔ f.one < q) ∧ (x.value : ℝ) ≤ Real.exp x.lnUp.value := by
  have hunit := real_twoPow_unitBits_pos f
  unfold lnUp
  rcases h1.eq_or_lt with rfl | h1
  · rw [if_pos ((hx.eq_iff (one_at f)).mpr rfl)]
    refine ⟨0, zero_at f, f.zero_lt_infinity, by omega, ?_⟩
    rw [hx.real_value_eq, f.units_one, div_self hunit.ne', value_zero, Rat.cast_zero, Real.exp_zero]
  · rw [if_neg fun heq => h1.ne' ((hx.eq_iff (one_at f)).mp heq)]
    have h0 : 0 < q := Nat.zero_lt_of_lt h1
    obtain ⟨p, -, hpf, hp, hlow, hhigh⟩ := ln_at hlib hx h1 hq
    refine ⟨p + 1, hp.nextUp_at hpf, succ_lt_infinity (log_value_le hx h0 hq) hpf hhigh, by omega, ?_⟩
    rw [← Real.log_le_iff_le_exp (hx.real_value_pos h0), (hp.nextUp_at hpf).real_value_eq,
      le_div_iff₀ hunit, f.units_succ, Nat.cast_add]
    exact hlow

end Accurate

theorem ln_lt_zero [Elementary] (hlib : Elementary.LnAccurate f) (h0 : zero.lt x = true)
    (h1 : x.lt one = true) : (Elementary.ln x).lt zero = true := by
  obtain ⟨q, hq, hq0, rfl⟩ := eq_positive_of_zero_lt h0
  have hx := positive_at hq
  obtain ⟨p, hp0, -, hp, -⟩ := neg_ln_at hlib hx hq0 ((hx.lt_iff (one_at f)).mp h1)
  obtain ⟨hle, hneg⟩ := hp.eq_positive hp0
  cases hln : Elementary.ln (signed false q hq) with
  | nan =>
    rw [hln] at hneg
    cases hneg
  | signed negative r hr =>
    rw [hln] at hneg
    obtain ⟨hsign, rfl⟩ := Binary.signed.inj hneg
    obtain rfl : negative = true := by cases negative <;> trivial
    exact decide_eq_true (by omega : -(r : Int) < 0)

/-! ### The exact functions, cut off -/

/-- The number of the format next to `v` on the side of zero. -/
noncomputable def ofReal (f : Format) (v : ℝ) : Binary f :=
  .signed (v < 0) (min (f.floorPosition ⌊|v| * twoPow f.unitBits⌋₊) f.infinity) (Nat.min_le_right _ _)

theorem ofReal_withinUlp {v : ℝ} (h : |v| * twoPow f.unitBits < f.units f.infinity) :
    (ofReal f v).WithinUlp v := by
  have hunit := real_twoPow_unitBits_pos f
  obtain ⟨hle, hlt⟩ := f.units_floorPosition ⌊|v| * twoPow f.unitBits⌋₊
  have hlow := (Nat.cast_le (α := ℝ).mpr hle).trans (Nat.floor_le (by positivity))
  have hhigh := (Nat.lt_floor_add_one (|v| * twoPow f.unitBits)).trans_le
    (by exact_mod_cast hlt : _ ≤ ((f.units (f.floorPosition ⌊|v| * twoPow f.unitBits⌋₊ + 1) : ℕ) : ℝ))
  have hfinite : f.floorPosition ⌊|v| * twoPow f.unitBits⌋₊ < f.infinity :=
    f.units_strictMono.lt_iff_lt.mp (by exact_mod_cast hlow.trans_lt h)
  rw [f.units_succ, Nat.cast_add] at hhigh
  unfold ofReal
  simp only [Nat.min_eq_left hfinite.le]
  refine withinUlp_iff.mpr ⟨hfinite, ?_⟩
  by_cases hv : v < 0
  · have habs : |v| * twoPow f.unitBits = -(v * twoPow f.unitBits) := by
      rw [abs_of_neg hv, neg_mul]
    have hunits : ((signed (decide (v < 0)) _ hfinite.le).units : ℝ) =
        -f.units (f.floorPosition ⌊|v| * twoPow f.unitBits⌋₊) := by
      rw [decide_eq_true hv]
      change ((-(f.units _ : Int) : Int) : ℝ) = _
      push_cast
      rfl
    rw [hunits, abs_le]
    constructor <;> linarith
  · have habs : |v| * twoPow f.unitBits = v * twoPow f.unitBits := by
      rw [abs_of_nonneg (not_lt.mp hv)]
    have hunits : ((signed (decide (v < 0)) _ hfinite.le).units : ℝ) =
        f.units (f.floorPosition ⌊|v| * twoPow f.unitBits⌋₊) := by
      rw [decide_eq_false hv]
      exact Int.cast_natCast _
    rw [hunits, abs_le]
    constructor <;> linarith

/-- Logarithms are far inside the range of their format. -/
theorem abs_log_lt {n : Nat} (hn : 0 < n) (h : n < f.units f.infinity + twoPow f.unitBits) :
    |Real.log (n / twoPow f.unitBits)| * twoPow f.unitBits < f.units f.infinity := by
  have hunit := real_twoPow_unitBits_pos f
  have hn' : (1 : ℝ) ≤ n := Nat.one_le_cast.mpr hn
  have hratio : (0 : ℝ) < n / twoPow f.unitBits := by positivity
  rcases le_total 1 ((n : ℝ) / twoPow f.unitBits) with hone | hone
  · have hlog := mul_le_mul_of_nonneg_right (Real.log_le_sub_one_of_pos hratio) hunit.le
    rw [abs_of_nonneg (Real.log_nonneg hone)]
    refine hlog.trans_lt ?_
    rw [sub_mul, div_mul_cancel₀ _ hunit.ne', one_mul, sub_lt_iff_lt_add]
    exact_mod_cast h
  · have hbits : (f.unitBits : ℝ) * twoPow f.unitBits < f.units f.infinity := by
      have hnat : f.unitBits * twoPow f.unitBits < f.units f.infinity := by
        have hlt : f.unitBits < twoPow (f.fractionBits + 1) := by cases f <;> decide
        refine Nat.lt_of_lt_of_le ?_ f.twoPow_le_units_infinity
        rw [twoPow_add]
        exact Nat.mul_lt_mul_of_pos_right hlt (twoPow_pos _)
      exact_mod_cast hnat
    have hlog := log_twoPow_le f.unitBits
    rw [abs_of_nonpos (Real.log_nonpos hratio.le hone), Real.log_div (by positivity) hunit.ne']
    refine lt_of_le_of_lt ?_ hbits
    apply mul_le_mul_of_nonneg_right _ hunit.le
    linarith [Real.log_nonneg hn']

/-- A function of real numbers on the finite numbers of a format, with its limits at both ends. -/
noncomputable def extend (g : ℝ → ℝ) (low high : Binary f) : Binary f → Binary f
  | nan => nan
  | signed negative p hp =>
    if p = f.infinity then (if negative then low else high)
    else ofReal f (g (signed negative p hp).value)

theorem extend_of_finite (g : ℝ → ℝ) (low high : Binary f) (h : x.isFinite = true) :
    extend g low high x = ofReal f (g x.value) := by
  obtain ⟨negative, p, hp, hpf, rfl⟩ := exists_signed_of_finite h
  exact if_neg hpf.ne

/-- A number above minus one is, increased by one, a number of units again. -/
theorem exists_one_add_value_eq (h : (-one).lt x = true) (hfinite : x.isFinite = true) :
    ∃ n : Nat, 0 < n ∧ n < f.units f.infinity + twoPow f.unitBits ∧
      (1 + x.value : ℝ) = n / twoPow f.unitBits := by
  have hunit := real_twoPow_unitBits_pos f
  obtain ⟨negative, p, hp, hpf, rfl⟩ := exists_signed_of_finite hfinite
  have hlast := f.units_strictMono hpf
  have hvalue : ((signed negative p hp).value : ℝ) =
      ((signed negative p hp).units : ℝ) / twoPow f.unitBits := by
    unfold value
    push_cast
    rfl
  cases negative with
  | false =>
    refine ⟨twoPow f.unitBits + f.units p, Nat.add_pos_left (twoPow_pos _) _, by omega, ?_⟩
    rw [hvalue, Nat.cast_add, add_div, div_self hunit.ne']
    rfl
  | true =>
    have hlt : -(f.one : Int) < -(p : Int) := of_decide_eq_true h
    have hbelow : f.units p < f.units f.one := f.units_strictMono (by omega)
    rw [f.units_one] at hbelow
    refine ⟨twoPow f.unitBits - f.units p, Nat.sub_pos_of_lt hbelow, by omega, ?_⟩
    rw [hvalue, Nat.cast_sub hbelow.le, sub_div, div_self hunit.ne', sub_eq_add_neg, ← neg_div]
    congr 2
    exact Int.cast_neg _

end Binary

/-- The exact functions, with results cut off to the format. Powers are taken of finite numbers. -/
@[reducible]
noncomputable def Elementary.exact : Elementary where
  ln x := if x.lt .zero then .nan else if x.isZero then -.infinity
    else Binary.extend Real.log .nan .infinity x
  exp := Binary.extend Real.exp .zero .infinity
  lnOnePlus x := if x.lt (-.one) then .nan else if x.eq (-.one) then -.infinity
    else Binary.extend (fun v => Real.log (1 + v)) .nan .infinity x
  expMinusOne := Binary.extend (fun v => Real.exp v - 1) (-.one) .infinity
  pow x y := Binary.ofReal _ ((x.value : ℝ) ^ (y.value : ℝ))

theorem Elementary.exact_lnAccurate (f : Format) : @Elementary.LnAccurate .exact f := by
  let _ := Elementary.exact
  refine ⟨fun x h0 hfinite => ?_, ?_, fun x h1 hfinite => ?_⟩
  · obtain ⟨p, hp, hp0, rfl⟩ := Binary.eq_positive_of_zero_lt h0
    have hln : Elementary.ln (Binary.signed false p hp) =
        Binary.ofReal f (Real.log (Binary.signed false p hp).value) := by
      change (if _ then _ else if _ then _ else _) = _
      rw [if_neg, if_neg, Binary.extend_of_finite _ _ _ hfinite]
      · exact Bool.not_eq_true _ ▸ Binary.isZero_positive hp0.ne'
      · rw [(Binary.positive_at hp).lt_iff (Binary.zero_at f)]
        exact Nat.not_lt_zero p
    rw [hln]
    apply Binary.ofReal_withinUlp
    rw [(Binary.positive_at hp).real_value_eq]
    refine Binary.abs_log_lt (Format.units_pos hp0) (Nat.lt_add_right _ ?_)
    exact f.units_strictMono (Binary.isFinite_positive.mp hfinite)
  · cases f <;> rfl
  · obtain ⟨m, n, hm, hn, hmn⟩ := Binary.exists_ordinal_of_lt h1
    have hln : Elementary.lnOnePlus x = Binary.ofReal f (Real.log (1 + x.value)) := by
      change (if _ then _ else if _ then _ else _) = _
      rw [if_neg, if_neg, Binary.extend_of_finite _ _ _ hfinite]
      · rw [Binary.eq_iff_of_ordinal hn hm]
        omega
      · rw [Binary.lt_iff_of_ordinal hn hm]
        omega
    obtain ⟨k, hk0, hk, hvalue⟩ := Binary.exists_one_add_value_eq h1 hfinite
    rw [hln]
    apply Binary.ofReal_withinUlp
    rw [hvalue]
    exact Binary.abs_log_lt hk0 hk

end DifferentialPrivacy
