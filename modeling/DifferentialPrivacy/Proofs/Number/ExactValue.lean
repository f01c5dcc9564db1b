import DifferentialPrivacy.Number.Arithmetic
import DifferentialPrivacy.Proofs.Number.Rounding
import Mathlib.Algebra.Order.Field.Rat

set_option autoImplicit false

/-!
# Exact values

The rational number that a finite number of a format stands for, and the integers that keep their
value on the way into a format: those with no more digits than a significand. The first integer
after them is rounded down, and the second is a number of the format again.
-/
namespace DifferentialPrivacy

namespace Format

variable {f : Format}

theorem fractionBits_le_unitBits (f : Format) : f.fractionBits ≤ f.unitBits := by
  cases f <;> decide

/-- One starts a binade, and its number is the bias of the exponents. -/
theorem one_eq (f : Format) : f.one = (f.unitBits - f.fractionBits + 1) * twoPow f.fractionBits := by
  cases f <;> decide

theorem infinity_eq (f : Format) :
    f.infinity = (2 * (f.unitBits - f.fractionBits) + 2 + 1) * twoPow f.fractionBits := by
  cases f <;> decide

theorem units_one (f : Format) : f.units f.one = twoPow f.unitBits := by
  rw [one_eq, units_mul_twoPow, Nat.add_sub_of_le f.fractionBits_le_unitBits]

theorem units_infinity (f : Format) :
    f.units f.infinity = twoPow (2 * f.unitBits + 2 - f.fractionBits) := by
  have hbits := f.fractionBits_le_unitBits
  rw [infinity_eq, units_mul_twoPow]
  exact congrArg twoPow (by omega)

theorem twoPow_le_units_infinity (f : Format) :
    twoPow (f.fractionBits + 1 + f.unitBits) ≤ f.units f.infinity := by
  rw [units_infinity]
  exact twoPow_le_twoPow (by cases f <;> decide)

theorem units_one_add (f : Format) :
    f.units (f.one + twoPow f.fractionBits) = 2 * twoPow f.unitBits := by
  rw [one_eq, ← Nat.succ_mul, Nat.succ_eq_add_one, units_mul_twoPow, ← Nat.add_assoc,
    Nat.add_sub_of_le f.fractionBits_le_unitBits, twoPow_succ, Nat.mul_comm]

/-- Where the binade of `2 ^ k` starts. -/
theorem units_twoPow (f : Format) (k : Nat) :
    f.units ((f.unitBits - f.fractionBits + k + 1) * twoPow f.fractionBits) =
      twoPow k * twoPow f.unitBits := by
  have hbits := f.fractionBits_le_unitBits
  rw [units_mul_twoPow, ← twoPow_add]
  exact congrArg twoPow (by omega)

theorem one_add_lt_infinity (f : Format) : f.one + twoPow f.fractionBits < f.infinity := by
  cases f <;> decide

theorem one_lt_infinity (f : Format) : f.one < f.infinity :=
  (Nat.le_add_right _ _).trans_lt f.one_add_lt_infinity

theorem nearest_le_infinity (f : Format) (num den : Nat) : f.nearest num den ≤ f.infinity :=
  f.nearestBy_le _ _

/-- Whole numbers that fit a significand are positions. -/
theorem units_nearest_of_le {n : Nat} (h : n ≤ twoPow (f.fractionBits + 1)) :
    f.units (f.nearest (n * twoPow f.unitBits) 1) = n * twoPow f.unitBits := by
  have hexact := units_floorPosition_mul h f.unitBits
  have hfits : f.floorPosition (n * twoPow f.unitBits) ≤ f.infinity := by
    apply f.units_strictMono.le_iff_le.mp
    rw [hexact]
    refine Nat.le_trans ?_ f.twoPow_le_units_infinity
    rw [twoPow_add]
    exact Nat.mul_le_mul_right _ h
  have heq := nearest_units (f := f) Nat.one_pos hfits
  rw [hexact, Nat.mul_one] at heq
  rw [heq, hexact]

/-- The first whole number without a position of its own is rounded down. -/
theorem nearest_first_inexact (f : Format) :
    f.nearest ((twoPow (f.fractionBits + 1) + 1) * twoPow f.unitBits) 1 =
        f.nearest (twoPow (f.fractionBits + 1) * twoPow f.unitBits) 1 ∧
      f.nearest (twoPow (f.fractionBits + 1) * twoPow f.unitBits) 1 < f.infinity := by
  cases f <;> decide +kernel

theorem twoPow_le_units_nearest {n : Nat} (h : 0 < n) :
    twoPow f.unitBits ≤ f.units (f.nearest (n * twoPow f.unitBits) 1) := by
  rw [← f.units_one, f.units_strictMono.le_iff_le]
  apply le_nearest Nat.one_pos f.one_le_infinity
  rw [units_one, Nat.mul_one]
  exact Nat.le_mul_of_pos_left _ h

/-- The last integer up to which a format has all integers. -/
def lastConsecutive (f : Format) : Nat := twoPow (f.fractionBits + 1)

/-- The spacing above one spans a binade with `2 ^ fractionBits` steps. -/
theorem spacing_one_mul (f : Format) : f.spacing f.one * twoPow f.fractionBits = twoPow f.unitBits := by
  rw [one_eq, spacing_mul_twoPow, ← twoPow_add, Nat.sub_add_cancel f.fractionBits_le_unitBits]

theorem spacing_one (f : Format) :
    twoPow (f.fractionBits + 1) ≤ f.spacing f.one ∧ f.spacing f.one ≤ twoPow f.unitBits := by
  rw [one_eq, spacing_mul_twoPow]
  exact ⟨twoPow_le_twoPow (by cases f <;> decide),
    twoPow_le_twoPow (Nat.sub_le _ _)⟩

/-- The last step below one is half as wide as the first above. -/
theorem units_one_pred (f : Format) :
    (f.units (f.one - 1) + f.spacing (f.one - 1) = twoPow f.unitBits) ∧
      f.spacing (f.one - 1) * f.lastConsecutive = twoPow f.unitBits := by
  have hone : 1 ≤ f.one := by cases f <;> decide
  have hbinade : (f.one - 1) / twoPow f.fractionBits - 1 + (f.fractionBits + 1) = f.unitBits := by
    cases f <;> decide
  constructor
  · rw [← units_succ, Nat.sub_add_cancel hone, units_one]
  · rw [spacing, lastConsecutive, ← twoPow_add, hbinade]

/-- The second integer from there on is the next one that the format has. -/
theorem units_nearest_second (f : Format) :
    f.units (f.nearest ((f.lastConsecutive + 2) * twoPow f.unitBits) 1) =
      (f.lastConsecutive + 2) * twoPow f.unitBits := by
  cases f <;> decide +kernel

end Format

namespace Binary

variable {f : Format}

/-- The exact value of a finite number. -/
def value (x : Binary f) : ℚ := x.units / twoPow f.unitBits

theorem value_positive {p : Nat} (h : p ≤ f.infinity) :
    (signed false p h).value = (f.units p : ℚ) / twoPow f.unitBits := rfl

theorem twoPow_unitBits_pos (f : Format) : (0 : ℚ) < twoPow f.unitBits :=
  Nat.cast_pos.mpr (twoPow_pos _)

theorem value_zero (f : Format) : (zero : Binary f).value = 0 := by
  unfold zero
  rw [value_positive, f.units_zero, Nat.cast_zero, zero_div]

theorem value_nonneg {p : Nat} (h : p ≤ f.infinity) : 0 ≤ (signed false p h).value :=
  div_nonneg (Nat.cast_nonneg _) (Nat.cast_nonneg _)

theorem value_pos {p : Nat} (h : p ≤ f.infinity) (hp : 0 < p) : 0 < (signed false p h).value :=
  div_pos (Nat.cast_pos.mpr (Format.units_pos hp)) (twoPow_unitBits_pos f)

theorem eq_positive_of_zero_lt {x : Binary f} (h : zero.lt x = true) :
    ∃ p hp, 0 < p ∧ x = signed false p hp := by
  cases x with
  | nan => cases h
  | signed negative p hp =>
    cases negative with
    | false => exact ⟨p, hp, by simpa [lt, ordinal?, zero] using h, rfl⟩
    | true =>
      have hlt : (0 : Int) < -p := of_decide_eq_true h
      omega

theorem zero_lt_positive {p : Nat} {h : p ≤ f.infinity} :
    zero.lt (signed false p h) = true ↔ 0 < p := by
  change decide ((0 : Int) < (p : Int)) = true ↔ _
  rw [decide_eq_true_iff]
  omega

theorem isFinite_positive {p : Nat} {h : p ≤ f.infinity} :
    (signed false p h).isFinite = true ↔ p < f.infinity := decide_eq_true_iff

theorem isZero_positive {p : Nat} {h : p ≤ f.infinity} (hp : p ≠ 0) :
    (signed false p h).isZero = false := decide_eq_false hp

theorem ofRatio_positive (f : Format) (num den : Nat) :
    ofRatio f false num den = .signed false (f.nearest num den) (f.nearest_le_infinity _ _) := rfl

theorem ofUnits_of_pos {num : Int} (sign : Bool) (den : Nat) (h : 0 < num) :
    ofUnits f sign num den = ofRatio f false num.natAbs den := by
  unfold ofUnits
  rw [if_neg (by omega), decide_eq_false (by omega)]

/-! ### Integers -/

theorem ofInt_zero (f : Format) : ofInt f 0 = zero := by
  unfold ofInt ofUnits
  rw [Int.zero_mul, if_pos rfl]
  rfl

theorem ofInt_natCast (f : Format) (n : Nat) :
    ofInt f n = ofRatio f false (n * twoPow f.unitBits) 1 := by
  rcases Nat.eq_zero_or_pos n with rfl | hn
  · have hzero : f.nearest 0 1 = 0 := (Format.nearest_eq_zero_iff Nat.one_pos).mpr (by omega)
    rw [Nat.cast_zero, ofInt_zero, Nat.zero_mul, ofRatio_positive]
    simp only [hzero]
    rfl
  · have hcast : (n : Int) * twoPow f.unitBits = (n * twoPow f.unitBits : Nat) :=
      (Int.natCast_mul ..).symm
    unfold ofInt
    rw [hcast, ofUnits_of_pos _ _ (Int.natCast_pos.mpr (Nat.mul_pos hn (twoPow_pos _))),
      Int.natAbs_natCast]

theorem ofInt_one (f : Format) : ofInt f 1 = one := by
  have hone := Format.nearest_units (f := f) Nat.one_pos f.one_le_infinity
  rw [f.units_one, Nat.mul_one] at hone
  refine (ofInt_natCast f 1).trans ?_
  rw [ofRatio_positive, Nat.one_mul]
  simp only [hone]
  rfl

theorem exists_ofInt_eq {n : Int} (h : 0 < n) :
    ∃ p hp, twoPow f.unitBits ≤ f.units p ∧ ofInt f n = .signed false p hp := by
  obtain ⟨m, rfl⟩ := Int.eq_ofNat_of_zero_le h.le
  rw [ofInt_natCast, ofRatio_positive]
  exact ⟨_, _, Format.twoPow_le_units_nearest (Int.natCast_pos.mp h), rfl⟩

theorem value_ofInt_of_le {n : Nat} (h : n ≤ twoPow (f.fractionBits + 1)) :
    (ofInt f n).value = n := by
  rw [ofInt_natCast, ofRatio_positive, value_positive, Format.units_nearest_of_le h, Nat.cast_mul,
    mul_div_cancel_right₀ _ (twoPow_unitBits_pos f).ne']

theorem ofInt_first_inexact (f : Format) :
    ∃ p hp, p < f.infinity ∧ ofInt f (twoPow (f.fractionBits + 1) + 1 : Nat) = signed false p hp ∧
      (signed false p hp).value = twoPow (f.fractionBits + 1) := by
  obtain ⟨heq, hfinite⟩ := f.nearest_first_inexact
  have hvalue := value_ofInt_of_le (f := f) (Nat.le_refl (twoPow (f.fractionBits + 1)))
  rw [ofInt_natCast, ofRatio_positive] at hvalue
  refine ⟨_, f.nearest_le_infinity _ _, hfinite, ?_, hvalue⟩
  rw [ofInt_natCast, ofRatio_positive]
  simp only [heq]

theorem value_ofInt {n : Nat} (h : n ≤ f.lastConsecutive + 1) :
    (ofInt f n).value = (min n f.lastConsecutive : Nat) := by
  rcases Nat.lt_or_ge f.lastConsecutive n with hlt | hle
  · obtain rfl : n = f.lastConsecutive + 1 := by omega
    obtain ⟨p, hp, -, heq, hvalue⟩ := ofInt_first_inexact f
    rw [Nat.min_eq_right (Nat.le_succ _)]
    exact (congrArg value heq).trans hvalue
  · rw [Nat.min_eq_left hle]
    exact value_ofInt_of_le hle

theorem value_ofInt_second (f : Format) :
    (ofInt f (f.lastConsecutive + 2 : Nat)).value = (f.lastConsecutive + 2 : Nat) := by
  rw [ofInt_natCast, ofRatio_positive, value_positive, Format.units_nearest_second, Nat.cast_mul,
    mul_div_cancel_right₀ _ (twoPow_unitBits_pos f).ne']

theorem le_value_ofInt (f : Format) (n : Nat) :
    (min n f.lastConsecutive : Nat) ≤ (ofInt f n).value := by
  have hexact := Format.units_nearest_of_le (f := f) (Nat.min_le_right n f.lastConsecutive)
  have hle : f.nearest (min n f.lastConsecutive * twoPow f.unitBits) 1 ≤
      f.nearest (n * twoPow f.unitBits) 1 := by
    apply Format.le_nearest Nat.one_pos (f.nearest_le_infinity _ _)
    rw [hexact, Nat.mul_one]
    exact Nat.mul_le_mul_right _ (Nat.min_le_left _ _)
  rw [ofInt_natCast, ofRatio_positive, value_positive, le_div_iff₀ (twoPow_unitBits_pos f),
    ← Nat.cast_mul, Nat.cast_le, ← hexact]
  exact f.units_strictMono.le_iff_le.mpr hle

theorem value_one (f : Format) : (one : Binary f).value = 1 := by
  unfold one
  rw [value_positive, f.units_one, div_self (twoPow_unitBits_pos f).ne']

theorem mul_one (x : Binary f) : x * one = x := by
  cases x with
  | nan => rfl
  | signed negative p hp =>
    have hone : f.one ≠ f.infinity := by cases f <;> decide
    have hone0 : f.one ≠ 0 := by cases f <;> decide
    change mul _ (signed false f.one f.one_le_infinity) = _
    unfold mul
    dsimp only
    rw [Bool.xor_false]
    by_cases h : p = f.infinity
    · subst h
      rw [if_pos (Or.inl rfl), if_neg (not_or.mpr ⟨f.zero_lt_infinity.ne', hone0⟩)]
    · rw [if_neg (not_or.mpr ⟨h, hone⟩), f.units_one]
      unfold ofRatio
      simp only [Format.nearest_units (twoPow_pos _) hp]

theorem two_eq (f : Format) :
    (two : Binary f) = .signed false (f.one + twoPow f.fractionBits) f.one_add_lt_infinity.le := by
  cases f <;> decide +kernel

theorem value_two (f : Format) : (two : Binary f).value = 2 := by
  rw [two_eq, value_positive, Format.units_one_add, Nat.cast_mul,
    mul_div_cancel_right₀ _ (twoPow_unitBits_pos f).ne', Nat.cast_ofNat]

end Binary
end DifferentialPrivacy
