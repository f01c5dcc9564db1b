import DifferentialPrivacy.Proofs.Number.ElementaryAccuracy
import DifferentialPrivacy.Proofs.Number.Midpoint
import Mathlib.Analysis.Complex.ExponentialBounds

set_option autoImplicit false

/-!
# The accuracy of exponentials less one

On numbers that are not positive, `e ^ x - 1` is accurate to one unit in the last place, and it is
minus one wherever the exact value is so near that this is the nearest number. The exact function, cut
off to the format and rounded near minus one, is such a library.
-/
namespace DifferentialPrivacy

namespace Format

variable {f : Format} {k p : Nat}

/-- A position less than a spacing of its own beyond the start of a binade is not beyond it at all. -/
theorem le_of_units_lt_add_spacing
    (h : f.units p < f.units ((k + 1) * twoPow f.fractionBits) + f.spacing p) :
    p ≤ (k + 1) * twoPow f.fractionBits := by
  have hfraction := twoPow_pos f.fractionBits
  by_contra hlt
  have hlt := Nat.not_le.mp hlt
  have hstart : (k + 1) * twoPow f.fractionBits / twoPow f.fractionBits = k + 1 :=
    Nat.mul_div_cancel _ hfraction
  rcases Nat.lt_or_ge p ((k + 1 + 1) * twoPow f.fractionBits) with hin | hpast
  · -- all positions of a binade are equally far apart
    have hdiv : p / twoPow f.fractionBits = k + 1 := by
      rw [Nat.add_mul, Nat.one_mul] at hin
      rw [Nat.div_eq_iff hfraction]
      omega
    have hspacing : f.spacing p = f.spacing ((k + 1) * twoPow f.fractionBits) := by
      unfold spacing
      rw [hdiv, hstart]
    have hnext : f.units ((k + 1) * twoPow f.fractionBits + 1) ≤ f.units p :=
      f.units_strictMono.monotone hlt
    rw [f.units_succ, ← hspacing] at hnext
    omega
  · have hdouble : 2 * f.units ((k + 1) * twoPow f.fractionBits) ≤ f.units p := by
      refine Nat.le_trans ?_ (f.units_strictMono.monotone hpast)
      rw [units_mul_twoPow, units_mul_twoPow, Nat.mul_comm, ← twoPow_succ]
      rfl
    have htwo : 2 ≤ twoPow f.fractionBits := by cases f <;> decide
    have hwide : 2 * f.spacing p ≤ f.units p := by
      have hmany : twoPow f.fractionBits ≤ p := by
        refine Nat.le_trans ?_ hpast
        exact Nat.le_mul_of_pos_left _ (Nat.succ_pos _)
      exact (Nat.mul_le_mul_right _ htwo).trans (spacing_le hmany)
    omega

end Format

namespace Binary

variable {f : Format} {x y : Binary f} {p : Nat}

protected theorem neg_div (x y : Binary f) : -x / y = -(x / y) := by
  cases x with
  | nan => rfl
  | signed nx p hp =>
    cases y with
    | nan => rfl
    | signed ny q hq =>
      change div (signed (!nx) p hp) (signed ny q hq) = neg (div (signed nx p hp) (signed ny q hq))
      unfold div
      dsimp only
      rw [Bool.not_xor]
      split
      · split <;> rfl
      · split
        · rfl
        · split
          · split <;> rfl
          · rfl

theorem At.neg_le_zero (h : x.At p) : (-x).le zero = true := by
  obtain ⟨negative, hp, rfl, hzero⟩ := h
  cases negative with
  | false => exact decide_eq_true (Int.neg_nonpos_of_nonneg (Int.natCast_nonneg p))
  | true =>
    obtain rfl := hzero rfl
    rfl

theorem real_value_nonpos (h : x.le zero = true) (hfinite : x.isFinite = true) :
    (x.value : ℝ) ≤ 0 := by
  obtain ⟨negative, p, hp, -, rfl⟩ := exists_signed_of_finite hfinite
  have hunits : (signed negative p hp).units ≤ 0 := by
    cases negative with
    | false =>
      obtain rfl : p = 0 := by
        have hle : (p : Int) ≤ 0 := of_decide_eq_true h
        omega
      exact (congrArg Nat.cast f.units_zero).le
    | true => exact Int.neg_nonpos_of_nonneg (Int.natCast_nonneg _)
  have hrat : (signed negative p hp).value ≤ 0 :=
    div_nonpos_of_nonpos_of_nonneg (by exact_mod_cast hunits) (twoPow_unitBits_pos _).le
  exact_mod_cast hrat

/-- Cut off to the format, a probability is one still. -/
theorem ofReal_mem_unit {v : ℝ} (h0 : 0 ≤ v) (h1 : v ≤ 1) :
    zero.le (ofReal f v) = true ∧ (ofReal f v).le one = true := by
  have hplace : f.floorPosition ⌊|v| * twoPow f.unitBits⌋₊ ≤ f.one := by
    rw [← f.units_strictMono.le_iff_le, f.units_one]
    refine (f.units_floorPosition _).1.trans (Nat.floor_le_of_le ?_)
    rw [abs_of_nonneg h0]
    exact mul_le_of_le_one_left (real_twoPow_unitBits_pos f).le h1
  have hat : (ofReal f v).At (min (f.floorPosition ⌊|v| * twoPow f.unitBits⌋₊) f.infinity) := by
    unfold ofReal
    rw [decide_eq_false (not_lt.mpr h0)]
    exact positive_at _
  exact ⟨((zero_at f).le_iff hat).mpr (Nat.zero_le _),
    (hat.le_iff (one_at f)).mpr ((Nat.min_le_left _ _).trans hplace)⟩

end Binary

/-- Exponentials of numbers that are not positive lie between zero and one. -/
def Elementary.ExpInUnit [Elementary] : Prop :=
  ∀ x : Binary .binary64, x.le .zero = true →
    Binary.zero.le (Elementary.exp x) = true ∧ (Elementary.exp x).le .one = true

/-- A number that is not positive and has an exponential so small that one less is minus one when it
    is rounded, with much to spare. -/
structure Elementary.NearMinusOne {f : Format} (x : Binary f) : Prop where
  le_zero : x.le .zero = true
  exp_le : x.isFinite = true → Real.exp x.value ≤ 1 / 2 ^ 60

/-- Exponentials less one of numbers that are not positive, accurate to one unit in the last place,
    and to the nearest number where that is minus one with much to spare. -/
structure Elementary.ExpMinusOneAccurate [Elementary] : Prop where
  withinUlp (x : Binary .binary64) : x.le .zero = true → x.isFinite = true →
    (Elementary.expMinusOne x).WithinUlp (Real.exp x.value - 1)
  nearMinusOne (x : Binary .binary64) : Elementary.NearMinusOne x → Elementary.expMinusOne x = -.one

open Classical in
/-- The exact functions cut off to the format, but for exponentials less one near minus one, which
    are minus one. -/
@[reducible]
noncomputable def Elementary.exactNearMinusOne : Elementary where
  ln := Elementary.exact.ln
  exp := Elementary.exact.exp
  lnOnePlus := Elementary.exact.lnOnePlus
  expMinusOne x := if NearMinusOne x then -.one else Elementary.exact.expMinusOne x
  pow := Elementary.exact.pow

namespace Elementary

theorem neg_one_withinUlp {v : ℝ} (h0 : 0 ≤ v) (h : v ≤ 1 / 2 ^ 60) :
    (-Binary.one : Binary .binary64).WithinUlp (v - 1) := by
  have hunit := Binary.real_twoPow_unitBits_pos .binary64
  change (Binary.signed true Format.binary64.one (Format.one_le_infinity _)).WithinUlp (v - 1)
  refine Binary.withinUlp_iff.mpr ⟨Format.one_lt_infinity _, ?_⟩
  have hunits : ((Binary.signed true Format.binary64.one (Format.one_le_infinity _)).units : ℝ) =
      -twoPow Format.binary64.unitBits := by
    change ((-(Format.binary64.units Format.binary64.one : Int) : Int) : ℝ) = _
    rw [Format.units_one]
    push_cast
    rfl
  have hspacing : (Format.binary64.spacing Format.binary64.one : ℝ) * 2 ^ 52 =
      twoPow Format.binary64.unitBits := by
    have hsteps : ((twoPow Format.binary64.fractionBits : Nat) : ℝ) = 2 ^ 52 := by
      change ((2 ^ 52 : Nat) : ℝ) = _
      norm_num
    rw [← Format.spacing_one_mul, Nat.cast_mul, hsteps]
  have hscaled := mul_le_mul_of_nonneg_right h hunit.le
  rw [hunits, abs_le]
  constructor
  · linarith
  · linarith [mul_nonneg h0 hunit.le]

theorem exactNearMinusOne_accurate : @ExpMinusOneAccurate exactNearMinusOne := by
  let _ := exactNearMinusOne
  refine ⟨fun x h0 hfinite => ?_, fun x hnear => if_pos hnear⟩
  by_cases hnear : NearMinusOne x
  · rw [show expMinusOne x = -Binary.one from if_pos hnear]
    exact neg_one_withinUlp (Real.exp_nonneg _) (hnear.exp_le hfinite)
  · have hexp : expMinusOne x = Binary.ofReal .binary64 (Real.exp x.value - 1) :=
      (if_neg hnear).trans (Binary.extend_of_finite _ _ _ hfinite)
    rw [hexp]
    apply Binary.ofReal_withinUlp
    have hexp0 := Real.exp_nonneg (x.value : ℝ)
    have hexp1 := Real.exp_le_one_iff.mpr (Binary.real_value_nonpos h0 hfinite)
    have hunit := Binary.real_twoPow_unitBits_pos .binary64
    have habs : |Real.exp (x.value : ℝ) - 1| ≤ 1 := by
      rw [abs_le]
      constructor <;> linarith
    have hroom : (twoPow Format.binary64.unitBits : ℝ) <
        Format.binary64.units Format.binary64.infinity := by
      rw [← Format.units_one]
      exact_mod_cast Format.binary64.units_strictMono (Format.one_lt_infinity _)
    calc
      |Real.exp (x.value : ℝ) - 1| * twoPow Format.binary64.unitBits
        ≤ 1 * twoPow Format.binary64.unitBits := mul_le_mul_of_nonneg_right habs hunit.le
      _ < Format.binary64.units Format.binary64.infinity := (one_mul _).trans_lt hroom

theorem exactNearMinusOne_expInUnit : @ExpInUnit exactNearMinusOne := by
  intro x h
  change Binary.zero.le (Binary.extend Real.exp .zero .infinity x) = true ∧
    (Binary.extend Real.exp .zero .infinity x).le .one = true
  by_cases hfinite : x.isFinite = true
  · rw [Binary.extend_of_finite _ _ _ hfinite]
    exact Binary.ofReal_mem_unit (Real.exp_nonneg _)
      (Real.exp_le_one_iff.mpr (Binary.real_value_nonpos h hfinite))
  · cases x with
    | nan => cases h
    | signed negative p hp =>
      obtain rfl : p = Format.binary64.infinity :=
        hp.eq_or_lt.resolve_right fun hlt => hfinite (decide_eq_true hlt)
      cases negative with
      | false =>
        have hle := ((Binary.positive_at hp).le_iff (Binary.zero_at _)).mp h
        exact absurd hle (by decide)
      | true => exact ⟨rfl, rfl⟩

end Elementary

/-! ### Two bounds on exponentials -/

theorem exp_thirtySix_lt : Real.exp 36 < 2 ^ 52 := by
  rw [show (36 : ℝ) = (36 : ℕ) by norm_num, ← Real.exp_one_pow]
  refine (pow_lt_pow_left₀ Real.exp_one_lt_d9 (Real.exp_nonneg _) (by norm_num)).trans ?_
  norm_num

theorem lt_exp_fortyTwo : 2 ^ 60 < Real.exp 42 := by
  rw [show (42 : ℝ) = (42 : ℕ) by norm_num, ← Real.exp_one_pow]
  refine lt_trans ?_ (pow_lt_pow_left₀ Real.exp_one_gt_d9 (by norm_num) (by norm_num))
  norm_num

end DifferentialPrivacy
