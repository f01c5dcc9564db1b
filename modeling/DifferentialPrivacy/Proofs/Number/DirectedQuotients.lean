import DifferentialPrivacy.Proofs.Number.LeastBounds

set_option autoImplicit false

/-!
# Directed quotients as best bounds

Upward and downward quotients start from the nearest one and step away from it when they see a
remainder on the wrong side. They compute the remainder in the format, where one of no more than half
the smallest positive value is zero. So each of the two is the best bound on the exact quotient in its
direction unless the remainder vanishes there, and that of a dividend that is not very small never
does.
-/
namespace DifferentialPrivacy

namespace Format

variable {f : Format} {p q num den : Nat} {k : Int}

/-! ### Downward positions -/

/-- The nearest position, or the one before when a remainder is seen below it. -/
def downward (f : Format) (num den : Nat) : Nat :=
  let q := f.nearest num den
  if 2 * num + twoPow f.unitBits < 2 * (f.units q * den) then q - 1 else q

theorem units_nearest_sub_one_le (hden : 0 < den) (h : num < f.units (f.nearest num den) * den) :
    f.units (f.nearest num den - 1) * den ≤ num := by
  obtain ⟨low, hle, -, hcases⟩ := f.nearest_cases num hden
  rcases hcases with hn | ⟨-, hn⟩
  · have hlow : f.nearest num den ≤ low := by omega
    have hunits := Nat.mul_le_mul_right den (f.units_strictMono.monotone hlow)
    omega
  · have hlow : f.nearest num den - 1 ≤ low := by omega
    exact (Nat.mul_le_mul_right den (f.units_strictMono.monotone hlow)).trans hle

theorem downward_le_nearest (f : Format) (num den : Nat) :
    f.downward num den ≤ f.nearest num den := by
  unfold downward
  dsimp only
  split <;> omega

theorem units_downward_le_iff (hden : 0 < den) : f.units (f.downward num den) * den ≤ num ↔
    ¬(num < f.units (f.nearest num den) * den ∧
      2 * (f.units (f.nearest num den) * den) ≤ 2 * num + twoPow f.unitBits) := by
  have hbefore : _ → f.units (f.nearest num den - 1) * den ≤ num := units_nearest_sub_one_le hden
  unfold downward
  dsimp only
  split <;> omega

/-- Whether or not the remainder is lost, the excess is less than a unit of the format. -/
theorem two_mul_units_downward_le (hden : 0 < den) :
    2 * (f.units (f.downward num den) * den) ≤ 2 * num + twoPow f.unitBits := by
  have hbefore : _ → f.units (f.nearest num den - 1) * den ≤ num := units_nearest_sub_one_le hden
  unfold downward
  dsimp only
  split <;> omega

theorem le_downward (hden : 0 < den) (hp : p ≤ f.infinity) (h : f.units p * den ≤ num) :
    p ≤ f.downward num den := by
  have hle := le_nearest hden hp h
  unfold downward
  dsimp only
  split
  · rename_i hstep
    have hne : p ≠ f.nearest num den := by
      rintro rfl
      omega
    omega
  · exact hle

theorem downward_zero (f : Format) (hden : 0 < den) : f.downward 0 den = 0 := by
  have hnearest : f.nearest 0 den = 0 := (nearest_eq_zero_iff hden).mpr (Nat.zero_le _)
  exact Nat.le_zero.mp ((f.downward_le_nearest 0 den).trans_eq hnearest)

/-! ### Remainders that the format takes for zero -/

/-- A positive remainder of no more than half the smallest positive value. -/
def Vanishes (f : Format) (r : ℚ) : Prop := 0 < r ∧ r ≤ 1 / (2 * twoPow f.unitBits)

theorem vanishes_iff : f.Vanishes (k / twoPow f.unitBits / twoPow f.unitBits) ↔
    0 < k ∧ 2 * k ≤ twoPow f.unitBits := by
  have hunit := Binary.twoPow_unitBits_pos f
  unfold Vanishes
  rw [div_pos_iff_of_pos_right hunit, div_pos_iff_of_pos_right hunit, Int.cast_pos,
    ← one_div_mul_one_div, ← mul_one_div _ (twoPow f.unitBits : ℚ),
    mul_le_mul_iff_left₀ (one_div_pos.mpr hunit), div_le_div_iff₀ hunit two_pos, one_mul, mul_comm]
  norm_cast

/-- The remainder of the nearest quotient of the numbers at `p` and `q`, as a product of units. -/
def remainderUnits (f : Format) (p q : Nat) : Int :=
  (f.units p * twoPow f.unitBits : Nat) -
    (f.units (f.nearest (f.units p * twoPow f.unitBits) (f.units q)) * f.units q : Nat)

theorem twoPow_dvd_remainderUnits (hq : 0 < q) (h : p = 0 ∨ f.remainderBound ≤ f.units p) :
    (twoPow f.unitBits : Int) ∣ f.remainderUnits p q := by
  refine Int.dvd_sub (Int.natCast_dvd_natCast.mpr (Nat.dvd_mul_left _ _))
    (Int.natCast_dvd_natCast.mpr ?_)
  rcases h with rfl | h
  · have hnearest : f.nearest 0 (f.units q) = 0 :=
      (nearest_eq_zero_iff (units_pos hq)).mpr (Nat.zero_le _)
    rw [f.units_zero, Nat.zero_mul, hnearest, f.units_zero, Nat.zero_mul]
    exact Nat.dvd_zero _
  · exact twoPow_dvd_quotient h hq

end Format

namespace Binary

variable {f : Format} {x y : Binary f} {p q : Nat} {amount : ℚ}

/-! ### The position of a quotient -/

theorem At.neg_zero (hx : x.At 0) : (-x).At 0 := by
  obtain ⟨negative, hp, rfl, -⟩ := hx
  exact zero_at_of_sign f !negative

/-- The step of a downward quotient, taken on the negative side of the line. -/
theorem step_eq_downward (num den : Nat) {step : Prop} [Decidable step]
    (hfinite : f.nearest num den < f.infinity)
    (h : step ↔ 2 * num + twoPow f.unitBits < 2 * (f.units (f.nearest num den) * den)) :
    (if (ofRatio f true num den).isFinite ∧ step then (ofRatio f true num den).nextUp
      else ofRatio f true num den) =
      .signed true (f.downward num den) ((f.downward_le_nearest _ _).trans hfinite.le) := by
  by_cases hs : 2 * num + twoPow f.unitBits < 2 * (f.units (f.nearest num den) * den)
  · have hdown : f.downward num den = f.nearest num den - 1 := if_pos hs
    have hn0 : f.nearest num den ≠ 0 := by
      intro h0
      rw [h0, f.units_zero, Nat.zero_mul] at hs
      omega
    rw [if_pos ⟨decide_eq_true hfinite, h.mpr hs⟩]
    simp only [hdown]
    unfold ofRatio nextUp
    simp [hn0]
  · have hdown : f.downward num den = f.nearest num den := if_neg hs
    rw [if_neg fun hstep => hs (h.mp hstep.2)]
    simp only [hdown]
    rfl

theorem At.divDown_at (hx : x.At p) (hy : y.At q) (hpf : p < f.infinity) (hq0 : 0 < q)
    (hqf : q < f.infinity)
    (hfinite : f.nearest (f.units p * twoPow f.unitBits) (f.units q) < f.infinity) :
    (x.divDown y).At (f.downward (f.units p * twoPow f.unitBits) (f.units q)) := by
  obtain ⟨hqle, rfl⟩ := hy.eq_positive hq0
  rcases Nat.eq_zero_or_pos p with rfl | hp0
  · rw [f.units_zero, Nat.zero_mul, f.downward_zero (Format.units_pos hq0)]
    exact (divUp_of_zero hx.neg_zero hqle hq0 hqf).neg_zero
  obtain ⟨hple, rfl⟩ := hx.eq_positive hp0
  have hquotient : -signed false p hple / signed false q hqle =
      ofRatio f true (f.units p * twoPow f.unitBits) (f.units q) := by
    change div (signed true p hple) (signed false q hqle) = _
    unfold div
    dsimp only
    rw [if_neg hpf.ne, if_neg hqf.ne, if_neg hq0.ne']
    rfl
  have hremainder : mulAdd (-ofRatio f true (f.units p * twoPow f.unitBits) (f.units q))
      (signed false q hqle) (-signed false p hple) =
      ofUnits f false (f.units (f.nearest (f.units p * twoPow f.unitBits) (f.units q)) * f.units q +
        -(f.units p) * twoPow f.unitBits) (twoPow f.unitBits) := by
    change mulAdd (signed false _ _) _ (signed true _ _) = _
    unfold mulAdd
    dsimp only
    rw [if_neg (not_or.mpr ⟨hfinite.ne, hqf.ne⟩), if_neg hpf.ne]
    rfl
  have hseen : zero.lt (ofUnits f false
      (f.units (f.nearest (f.units p * twoPow f.unitBits) (f.units q)) * f.units q +
        -(f.units p) * twoPow f.unitBits) (twoPow f.unitBits)) = true ↔
      2 * (f.units p * twoPow f.unitBits) + twoPow f.unitBits <
        2 * (f.units (f.nearest (f.units p * twoPow f.unitBits) (f.units q)) * f.units q) :=
    zero_lt_remainder (by push_cast; ring)
  unfold divDown divUp
  rw [hquotient, zero_lt_positive.mpr hq0]
  dsimp only
  rw [hremainder, step_eq_downward (f.units p * twoPow f.unitBits) (f.units q) hfinite]
  · exact positive_at _
  · rw [← hseen]
    refine ⟨And.right, fun h => ⟨?_, h⟩⟩
    rw [eq_zero_of_zero_lt h]
    exact Bool.false_ne_true

/-! ### Best bounds -/

/-- The least number of the format, infinity included, that is no less than an exact amount. -/
structure LeastBound (amount : ℚ) (z : Binary f) : Prop where
  bound : z.AtLeast amount
  least : ∀ w : Binary f, w.AtLeast amount → z.le w = true

/-- The greatest finite number of the format that is no more than an exact amount. -/
structure GreatestBound (amount : ℚ) (z : Binary f) : Prop where
  finite : z.isFinite = true
  bound : z.value ≤ amount
  greatest : ∀ w : Binary f, w.isFinite = true → w.value ≤ amount → w.le z = true

/-- What is left of the dividend beside the nearest quotient. An infinite quotient counts as the first
    number beyond the format. -/
def remainder (x y : Binary f) : ℚ := x.value - (x / y).value * y.value

theorem le_of_value_neg (hx : x.isFinite = true) (h : x.value < 0) (hy : y.At q) :
    x.le y = true := by
  obtain ⟨negative, p, hp, -, rfl⟩ := exists_signed_of_finite hx
  cases negative with
  | false => exact absurd h (not_lt.mpr (value_nonneg hp))
  | true =>
    unfold le
    rw [hy.ordinal?_eq]
    exact decide_eq_true (by omega : -(p : Int) ≤ (q : Int))

theorem value_div_value (x y : Binary f) : x.value / y.value = x.units / y.units :=
  div_div_div_cancel_right₀ (twoPow_unitBits_pos f).ne' _ _

section Quotient

variable (hx : x.At p) (hy : y.At q) (hpf : p < f.infinity) (hq0 : 0 < q) (hqf : q < f.infinity)
include hx hy

/-- The exact quotient as a number of units. -/
theorem At.quotient_eq : x.value / y.value =
    (f.units p * twoPow f.unitBits : Nat) / (f.units q : ℚ) / twoPow f.unitBits := by
  rw [value_div_value, hx.units_eq, hy.units_eq, Nat.cast_mul, div_right_comm,
    mul_div_cancel_right₀ _ (twoPow_unitBits_pos f).ne', Int.cast_natCast, Int.cast_natCast]

include hpf hq0 hqf

theorem At.remainder_eq :
    x.remainder y = f.remainderUnits p q / twoPow f.unitBits / twoPow f.unitBits := by
  have hunit := (twoPow_unitBits_pos f).ne'
  unfold remainder Format.remainderUnits
  rw [(div_at hx hy hpf hqf hq0).value_eq, hx.value_eq, hy.value_eq]
  push_cast
  rw [sub_div, sub_div, mul_div_cancel_right₀ _ hunit, div_mul_div_comm, div_div]

theorem At.vanishes_remainder_iff : f.Vanishes (x.remainder y) ↔
    0 < f.remainderUnits p q ∧ 2 * f.remainderUnits p q ≤ twoPow f.unitBits := by
  rw [hx.remainder_eq hy hpf hq0 hqf, Format.vanishes_iff]

theorem At.vanishes_neg_remainder_iff : f.Vanishes (-x.remainder y) ↔
    f.remainderUnits p q < 0 ∧ -(2 * f.remainderUnits p q) ≤ twoPow f.unitBits := by
  rw [hx.remainder_eq hy hpf hq0 hqf, ← neg_div, ← neg_div, ← Int.cast_neg, Format.vanishes_iff]
  omega

theorem At.losesQuotient_iff_vanishes : x.LosesQuotient y ↔ f.Vanishes (x.remainder y) := by
  rw [hx.losesQuotient_iff hy, hx.vanishes_remainder_iff hy hpf hq0 hqf]
  unfold Format.RemainderVanishes Format.remainderUnits
  omega

theorem At.divUp_leastBound_iff : (x.divUp y).LeastBound (x.value / y.value) ↔
    ¬f.Vanishes (x.remainder y) := by
  have hlost := hx.losesQuotient_iff_vanishes hy hpf hq0 hqf
  have hx0 : zero.le x = true := ((zero_at f).le_iff hx).mpr (Nat.zero_le p)
  have hxf := hx.isFinite_iff.mpr hpf
  obtain ⟨hq, rfl⟩ := hy.eq_positive hq0
  rw [← hlost, ← divUp_atLeast_iff hq0 hqf hx0 hxf]
  exact ⟨LeastBound.bound, fun h => ⟨h, fun w hw => divUp_le_of_atLeast hq0 hqf hx0 hxf hw⟩⟩

theorem At.divDown_greatestBound_iff (hfinite : (x / y).isFinite = true) :
    (x.divDown y).GreatestBound (x.value / y.value) ↔ ¬f.Vanishes (-x.remainder y) := by
  have hden := Format.units_pos (f := f) hq0
  have hdenq : (0 : ℚ) < f.units q := Nat.cast_pos.mpr hden
  have hunit := twoPow_unitBits_pos f
  rw [(div_at hx hy hpf hqf hq0).isFinite_iff] at hfinite
  have hz := hx.divDown_at hy hpf hq0 hqf hfinite
  have hvalue : ∀ {w : Binary f} {r : Nat}, w.At r → (w.value ≤ x.value / y.value ↔
      f.units r * f.units q ≤ f.units p * twoPow f.unitBits) := by
    intro w r hw
    rw [hx.quotient_eq hy, hw.value_eq, div_le_div_iff_of_pos_right hunit, le_div_iff₀ hdenq]
    exact_mod_cast Iff.rfl
  have hbound : (x.divDown y).value ≤ x.value / y.value ↔ ¬f.Vanishes (-x.remainder y) := by
    rw [hvalue hz, Format.units_downward_le_iff hden, hx.vanishes_neg_remainder_iff hy hpf hq0 hqf]
    unfold Format.remainderUnits
    omega
  rw [← hbound]
  refine ⟨GreatestBound.bound, fun h => ⟨?_, h, fun w hwf hw => ?_⟩⟩
  · exact hz.isFinite_iff.mpr ((f.downward_le_nearest _ _).trans_lt hfinite)
  · rcases lt_or_ge w.value 0 with hneg | hnonneg
    · exact le_of_value_neg hwf hneg hz
    · obtain ⟨r, hr⟩ := exists_at_of_value_nonneg hwf hnonneg
      exact (hr.le_iff hz).mpr (Format.le_downward hden hr.le_infinity ((hvalue hr).mp hw))

/-- The remainder of a dividend that is zero or not very small is not lost. -/
theorem At.not_vanishes
    (h : x.isZero = true ∨ (f.remainderBound : ℚ) / twoPow f.unitBits ≤ x.value) :
    ¬f.Vanishes (x.remainder y) ∧ ¬f.Vanishes (-x.remainder y) := by
  have hdvd : (twoPow f.unitBits : Int) ∣ f.remainderUnits p q := by
    refine Format.twoPow_dvd_remainderUnits hq0 (h.imp hx.isZero_iff.mp fun hle => ?_)
    rwa [hx.value_eq, div_le_div_iff_of_pos_right (twoPow_unitBits_pos f), Nat.cast_le] at hle
  rw [hx.vanishes_remainder_iff hy hpf hq0 hqf, hx.vanishes_neg_remainder_iff hy hpf hq0 hqf]
  constructor
  · rintro ⟨hpos, hle⟩
    have := Int.le_of_dvd hpos hdvd
    omega
  · rintro ⟨hneg, hle⟩
    have := Int.le_of_dvd (Int.neg_pos.mpr hneg) (Int.dvd_neg.mpr hdvd)
    omega

end Quotient

theorem exists_positions (hxf : x.isFinite = true) (hx : zero.le x = true)
    (hyf : y.isFinite = true) (hy : zero.lt y = true) :
    ∃ p q, x.At p ∧ y.At q ∧ p < f.infinity ∧ 0 < q ∧ q < f.infinity := by
  obtain ⟨p, hp⟩ := exists_at_of_zero_le hx
  obtain ⟨q, hq, hq0, rfl⟩ := eq_positive_of_zero_lt hy
  exact ⟨p, q, hp, positive_at hq, hp.isFinite_iff.mp hxf, hq0, isFinite_positive.mp hyf⟩

end Binary
end DifferentialPrivacy
