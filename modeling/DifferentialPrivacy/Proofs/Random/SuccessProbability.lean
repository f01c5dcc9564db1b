import DifferentialPrivacy.Proofs.Number.ExponentialAccuracy
import DifferentialPrivacy.Random.Noise

set_option autoImplicit false

/-!
# The probability of a success in discrete Laplace noise

The probability `1 - e ^ (-1 / scale)` is computed as a positive number of at most one, whatever the
scale. It is one exactly for small scales, where no failure is left, and for large scales it is so
small that the probability of a failure is rounded to one. Between these ends both probabilities lie
strictly between zero and one.
-/
namespace DifferentialPrivacy

namespace Draw
open Binary
open Format (binary64)

/-- The position of `2 ^ (-54)`, the last that is lost when it is subtracted from one. -/
def vanishing : Nat := (968 + 1) * twoPow binary64.fractionBits

theorem units_vanishing_mul :
    binary64.units vanishing * 2 ^ 54 = twoPow binary64.unitBits := by
  have hpower : (2 ^ 54 : Nat) = twoPow 54 := rfl
  rw [vanishing, Format.units_mul_twoPow, hpower, ← twoPow_add]
  rfl

/-- The position of the inverse of a scale. -/
def rate (q : Nat) : Nat :=
  binary64.nearest (twoPow binary64.unitBits * twoPow binary64.unitBits)
    (binary64.units q)

/-- The position of a whole number. -/
def whole (n : Nat) : Nat := binary64.floorPosition (n * twoPow binary64.unitBits)

theorem units_whole {n : Nat} (hn : n ≤ 64) :
    binary64.units (whole n) = n * twoPow binary64.unitBits :=
  Format.units_floorPosition_mul (hn.trans (by decide)) _

theorem whole_lt_infinity {n : Nat} (hn : n ≤ 64) : whole n < binary64.infinity := by
  have hfits : n < twoPow (binary64.fractionBits + 1) := hn.trans_lt (by decide)
  apply binary64.units_strictMono.lt_iff_lt.mp
  rw [units_whole hn]
  refine lt_of_lt_of_le ?_ (Format.twoPow_le_units_infinity _)
  rw [twoPow_add]
  exact Nat.mul_lt_mul_of_pos_right hfits (twoPow_pos _)

section Rate

variable {s : Binary64} {q c n : Nat}

theorem rate_at (hs : s.At q) (h0 : 0 < q) (hq : q < binary64.infinity) :
    (Binary.one / s).At (rate q) := by
  have hquotient := div_at (one_at _) hs (Format.one_lt_infinity _) hq h0
  rwa [Format.units_one] at hquotient

theorem le_rate (h0 : 0 < q) (hc : c ≤ binary64.infinity)
    (h : binary64.units c * binary64.units q ≤
      twoPow binary64.unitBits * twoPow binary64.unitBits) : c ≤ rate q :=
  Format.le_nearest (Format.units_pos h0) hc h

theorem rate_le (h0 : 0 < q) (h : twoPow binary64.unitBits * twoPow binary64.unitBits ≤
    binary64.units c * binary64.units q) : rate q ≤ c :=
  Format.nearest_le (Format.units_pos h0) h

/-- The inverse of at least a whole number's inverse is at most that number. -/
theorem rate_le_whole (h0 : 0 < q) (hn : n ≤ 64)
    (h : twoPow binary64.unitBits ≤ n * binary64.units q) : rate q ≤ whole n := by
  apply rate_le h0
  rw [units_whole hn, Nat.mul_comm n, Nat.mul_assoc]
  exact Nat.mul_le_mul_left _ h

theorem whole_le_rate (h0 : 0 < q) (hn : n ≤ 64)
    (h : n * binary64.units q ≤ twoPow binary64.unitBits) : whole n ≤ rate q := by
  apply le_rate h0 (whole_lt_infinity hn).le
  rw [units_whole hn, Nat.mul_comm n, Nat.mul_assoc]
  exact Nat.mul_le_mul_left _ h

/-- The inverse of a finite scale is well above the smallest numbers. -/
theorem four_le_rate (h0 : 0 < q) (hq : q < binary64.infinity) : 4 ≤ rate q := by
  have hend : binary64.units 4 * binary64.units binary64.infinity ≤
      twoPow binary64.unitBits * twoPow binary64.unitBits := by
    rw [show binary64.units 4 = twoPow 2 by decide, Format.units_infinity, ← twoPow_add, ← twoPow_add]
    exact twoPow_le_twoPow (by decide)
  refine le_rate h0 (by decide) (Nat.le_trans ?_ hend)
  exact Nat.mul_le_mul_left _ (Format.units_strictMono _ hq).le

end Rate

theorem two_le_twoPow_unitBits (f : Format) : 2 ≤ twoPow f.unitBits :=
  twoPow_le_twoPow (m := 1) (by cases f <;> decide)

theorem one_div_le_one_sub_exp_neg {n r : ℝ} (hn : 0 < n) (h : 1 / n ≤ r) :
    1 / (n + 1) ≤ 1 - Real.exp (-r) := by
  have hexp : Real.exp (-r) ≤ 1 / (1 + 1 / n) := by
    rw [Real.exp_neg, ← one_div]
    refine one_div_le_one_div_of_le (by positivity) ?_
    linarith [Real.add_one_le_exp r]
  have hsplit : 1 / (n + 1) = 1 - 1 / (1 + 1 / n) := by
    field_simp
    ring
  rw [hsplit]
  linarith

/-- The exact probability at the rounded rate is above the smallest number. -/
theorem one_lt_exact {s : Binary64} {q : Nat} (hs : s.At q) (h0 : 0 < q)
    (hq : q < binary64.infinity) :
    1 < (1 - Real.exp (-(Binary.one / s : Binary64).value)) * twoPow binary64.unitBits := by
  have hunit := real_twoPow_unitBits_pos .binary64
  have hfour : 1 / (twoPow binary64.unitBits / 4 : ℝ) ≤ (Binary.one / s : Binary64).value := by
    have hnat : binary64.units 4 ≤ binary64.units (rate q) :=
      binary64.units_strictMono.monotone (four_le_rate h0 hq)
    rw [show binary64.units 4 = 4 by decide] at hnat
    rw [(rate_at hs h0 hq).real_value_eq, one_div_div, div_le_div_iff_of_pos_right hunit]
    exact_mod_cast hnat
  have htwo : (2 : ℝ) ≤ twoPow binary64.unitBits :=
    Nat.ofNat_le_cast.mpr (two_le_twoPow_unitBits _)
  have hscaled := mul_le_mul_of_nonneg_right
    (one_div_le_one_sub_exp_neg (div_pos hunit four_pos) hfour) hunit.le
  refine lt_of_lt_of_le ?_ hscaled
  rw [one_div_mul_eq_div, lt_div_iff₀ (by linarith)]
  linarith

/-- The probability of a success at a position, no more than a spacing away from the exact one at the
    rounded rate. -/
structure SuccessAt [Elementary] (s : Binary64) (p : Nat) : Prop where
  pos : 0 < p
  le_one : p ≤ binary64.one
  place : (successProbability s).At p
  exact_le : (1 - Real.exp (-(Binary.one / s : Binary64).value)) * twoPow binary64.unitBits ≤
    binary64.units p + binary64.spacing p
  le_exact : binary64.units p ≤
    (1 - Real.exp (-(Binary.one / s : Binary64).value)) * twoPow binary64.unitBits +
      binary64.spacing p

namespace SuccessAt

variable [Elementary] {s : Binary64} {p : Nat} (h : SuccessAt s p)
include h

/-- A rate of `2 ^ (-53)` or more leaves more than the half of it. -/
theorem vanishing_lt (hrate : 1 / (2 : ℝ) ^ 53 ≤ (Binary.one / s : Binary64).value) :
    vanishing < p := by
  have hunit := real_twoPow_unitBits_pos .binary64
  by_contra hsmall
  have hunits := binary64.units_strictMono.monotone (Nat.not_lt.mp hsmall)
  have hspacing := Format.spacing_le_of_le (f := .binary64) (Nat.not_lt.mp hsmall)
  have hshare := mul_le_mul_of_nonneg_right
    (one_div_le_one_sub_exp_neg (by positivity) hrate) hunit.le
  have hend : (2 ^ 53 + 1) * (binary64.units vanishing + binary64.spacing vanishing) <
      twoPow binary64.unitBits := by
    have hunits : twoPow binary64.unitBits = twoPow 106 * twoPow 968 := twoPow_add 106 968
    rw [hunits, vanishing, Format.units_mul_twoPow, Format.spacing_mul_twoPow, twoPow_add,
      ← Nat.succ_mul, ← Nat.mul_assoc]
    exact Nat.mul_lt_mul_of_pos_right (by decide) (twoPow_pos _)
  have hend' : ((2 : ℝ) ^ 53 + 1) * (binary64.units p + binary64.spacing p) <
      twoPow binary64.unitBits := by
    exact_mod_cast (Nat.mul_le_mul_left _ (Nat.add_le_add hunits hspacing)).trans_lt hend
  rw [one_div_mul_eq_div, div_le_iff₀ (by positivity)] at hshare
  linarith [h.exact_le]

/-- A rate of at most `36` leaves the probability two steps below one or more. -/
theorem add_two_le (hrate : (Binary.one / s : Binary64).value ≤ (36 : ℝ)) :
    p + 2 ≤ binary64.one := by
  have hunit := real_twoPow_unitBits_pos .binary64
  by_contra hlarge
  have hfailure : 1 / (2 : ℝ) ^ 52 < Real.exp (-(Binary.one / s : Binary64).value) := by
    rw [Real.exp_neg, ← one_div]
    refine one_div_lt_one_div_of_lt (Real.exp_pos _) ?_
    exact (Real.exp_le_exp.mpr hrate).trans_lt exp_thirtySix_lt
  have hend : 2 ^ 52 * (twoPow binary64.unitBits + binary64.spacing p) ≤
      twoPow binary64.unitBits + 2 ^ 52 * binary64.units p := by
    have hcases : p = binary64.one ∨ p = binary64.one - 1 := by
      have := h.le_one
      omega
    have hsteps : twoPow binary64.fractionBits = 2 ^ 52 := rfl
    rcases hcases with rfl | rfl
    · have hspan := Format.spacing_one_mul .binary64
      rw [hsteps] at hspan
      rw [Format.units_one]
      omega
    · obtain ⟨hstep, hspan⟩ := Format.units_one_pred .binary64
      rw [Format.lastConsecutive, twoPow_succ, hsteps] at hspan
      omega
  have hend' : (2 : ℝ) ^ 52 * (twoPow binary64.unitBits + binary64.spacing p) ≤
      twoPow binary64.unitBits + 2 ^ 52 * binary64.units p := by
    exact_mod_cast hend
  have hscaled := mul_lt_mul_of_pos_right hfailure hunit
  linarith [h.le_exact]

/-- A positive rate no greater than `2 ^ (-54)` is not exceeded by the probability. -/
theorem le_vanishing (h0 : (0 : ℝ) < (Binary.one / s : Binary64).value)
    (hrate : (Binary.one / s : Binary64).value * twoPow binary64.unitBits ≤
      (binary64.units vanishing : ℝ)) : p ≤ vanishing := by
  apply Format.le_of_units_lt_add_spacing
  have hbelow : 1 - Real.exp (-(Binary.one / s : Binary64).value) <
      (Binary.one / s : Binary64).value := by
    linarith [Real.add_one_lt_exp (neg_ne_zero.mpr h0.ne')]
  have hscaled := mul_lt_mul_of_pos_right hbelow (real_twoPow_unitBits_pos .binary64)
  have hlt : (binary64.units p : ℝ) < binary64.units vanishing + binary64.spacing p := by
    linarith [h.le_exact]
  exact_mod_cast hlt

end SuccessAt

section Accurate

variable [Elementary] (hexp : Elementary.ExpMinusOneAccurate) {s : Binary64} {q : Nat} (hs : s.At q)
  (h0 : 0 < q) (hq : q < binary64.infinity)
include hexp hs h0 hq

omit hexp in
theorem successProbability_eq_neg :
    successProbability s = -Elementary.expMinusOne (-(Binary.one / s)) ∧
      (-(Binary.one / s)).le .zero = true := by
  refine ⟨?_, (rate_at hs h0 hq).neg_le_zero⟩
  rw [← Binary.neg_div]
  rfl

/-- Up to a scale of `1 / 42` no failure is left. -/
theorem successProbability_eq_one
    (h : 42 * binary64.units q ≤ twoPow binary64.unitBits) :
    successProbability s = .one := by
  obtain ⟨hp, hneg⟩ := successProbability_eq_neg hs h0 hq
  have hrate := rate_at hs h0 hq
  rw [hp, hexp.nearMinusOne _ ⟨hneg, ?_⟩]
  · rfl
  · intro hfinite
    have hbound := binary64.units_strictMono.monotone (whole_le_rate h0 (by decide) h)
    rw [units_whole (by decide)] at hbound
    have hvalue : (42 : ℝ) ≤ (Binary.one / s).value := by
      rw [hrate.real_value_eq, le_div_iff₀ (real_twoPow_unitBits_pos .binary64)]
      exact_mod_cast hbound
    rw [value_neg, Rat.cast_neg, Real.exp_neg, ← one_div]
    refine one_div_le_one_div_of_le (by positivity) ?_
    exact lt_exp_fortyTwo.le.trans (Real.exp_le_exp.mpr hvalue)

theorem exists_successAt (hfinite : rate q < binary64.infinity) : ∃ p, SuccessAt s p := by
  obtain ⟨hp, hneg⟩ := successProbability_eq_neg hs h0 hq
  have hunit := real_twoPow_unitBits_pos .binary64
  have haccurate := (hexp.withinUlp _ hneg
    ((isFinite_neg _).trans ((rate_at hs h0 hq).isFinite_iff.mpr hfinite))).neg
  rw [← hp, neg_sub, value_neg, Rat.cast_neg] at haccurate
  obtain ⟨p, hp0, -, hpAt, hlow, hhigh⟩ := haccurate.exists_at (one_lt_exact hs h0 hq)
  refine ⟨p, hp0, ?_, hpAt, hlow, hhigh⟩
  rw [Format.one_eq]
  apply Format.le_of_units_lt_add_spacing
  rw [← Format.one_eq, Format.units_one]
  have hbelow : (1 - Real.exp (-(Binary.one / s : Binary64).value)) *
      twoPow binary64.unitBits < 1 * twoPow binary64.unitBits :=
    mul_lt_mul_of_pos_right (by linarith [Real.exp_pos (-((Binary.one / s).value : ℝ))]) hunit
  rw [one_mul] at hbelow
  exact_mod_cast hhigh.trans_lt (add_lt_add_of_lt_of_le hbelow le_rfl)

/-- The probability of a success is positive and at most one at every scale. -/
theorem exists_successProbability_at :
    ∃ p, 0 < p ∧ p ≤ binary64.one ∧ (successProbability s).At p := by
  by_cases hsmall : 42 * binary64.units q ≤ twoPow binary64.unitBits
  · rw [successProbability_eq_one hexp hs h0 hq hsmall]
    exact ⟨_, by decide, le_rfl, one_at _⟩
  · have hle := rate_le_whole h0 (by decide) (Nat.le_of_not_le hsmall)
    obtain ⟨p, hp⟩ := exists_successAt hexp hs h0 hq (hle.trans_lt (whole_lt_infinity (by decide)))
    exact ⟨p, hp.pos, hp.le_one, hp.place⟩

/-- From a scale of `1 / 36` up to one of `2 ^ 53` neither a success nor a failure is left out. -/
theorem successProbability_between
    (hlow : twoPow binary64.unitBits ≤ 36 * binary64.units q)
    (hhigh : binary64.units q ≤ 2 ^ 53 * twoPow binary64.unitBits) :
    ∃ p, vanishing < p ∧ p + 2 ≤ binary64.one ∧ (successProbability s).At p := by
  have hrate := rate_at hs h0 hq
  have hunit := real_twoPow_unitBits_pos .binary64
  have hle : rate q ≤ whole 36 := rate_le_whole h0 (by decide) hlow
  obtain ⟨p, hp⟩ := exists_successAt hexp hs h0 hq (hle.trans_lt (whole_lt_infinity (by decide)))
  refine ⟨p, hp.vanishing_lt ?_, hp.add_two_le ?_, hp.place⟩
  · -- the number `2 ^ (-53)` starts the binade after that of `2 ^ (-54)`
    have hstep : binary64.units (vanishing + twoPow binary64.fractionBits) * 2 ^ 53 =
        twoPow binary64.unitBits := by
      have hpower : (2 ^ 53 : Nat) = twoPow 53 := rfl
      rw [vanishing, ← Nat.succ_mul, Nat.succ_eq_add_one, Format.units_mul_twoPow, hpower,
        ← twoPow_add]
      rfl
    have hfrom : vanishing + twoPow binary64.fractionBits ≤ rate q := by
      refine le_rate h0 (by decide) ((Nat.mul_le_mul_left _ hhigh).trans_eq ?_)
      rw [← Nat.mul_assoc, hstep]
    rw [hrate.real_value_eq, div_le_div_iff₀ (by positivity) hunit, one_mul, ← hstep]
    exact_mod_cast Nat.mul_le_mul_right _ (binary64.units_strictMono.monotone hfrom)
  · have hnat := binary64.units_strictMono.monotone hle
    rw [units_whole (by decide)] at hnat
    rw [hrate.real_value_eq, div_le_iff₀ hunit]
    exact_mod_cast hnat

/-- From a scale of `2 ^ 54` on the probability of a success vanishes against one. -/
theorem successProbability_le_vanishing
    (h : 2 ^ 54 * twoPow binary64.unitBits ≤ binary64.units q) :
    ∃ p, 0 < p ∧ p ≤ vanishing ∧ (successProbability s).At p := by
  have hrate := rate_at hs h0 hq
  have hunit := real_twoPow_unitBits_pos .binary64
  have hle : rate q ≤ vanishing := by
    apply rate_le h0
    refine Nat.le_trans (Nat.le_of_eq ?_) (Nat.mul_le_mul_left _ h)
    rw [← Nat.mul_assoc, units_vanishing_mul]
  obtain ⟨p, hp⟩ := exists_successAt hexp hs h0 hq (hle.trans_lt (by decide))
  have hpositive := hrate.real_value_pos (four_pos.trans_le (four_le_rate h0 hq))
  refine ⟨p, hp.pos, hp.le_vanishing hpositive ?_, hp.place⟩
  rw [hrate.real_value_eq, div_mul_cancel₀ _ hunit.ne']
  exact_mod_cast binary64.units_strictMono.monotone hle

end Accurate

/-! ### The probability of a failure -/

section Failure

variable {p : Binary64} {n : Nat}

/-- The position of the probability of a failure. -/
def failure (n : Nat) : Nat := binary64.nearest (twoPow binary64.unitBits - binary64.units n) 1

theorem failure_antitone : Antitone failure := fun _ _ h =>
  Format.nearest_mono Nat.one_pos (Nat.sub_le_sub_left (binary64.units_strictMono.monotone h) _)

theorem failure_le_one (n : Nat) : failure n ≤ binary64.one := by
  apply Format.nearest_le Nat.one_pos
  rw [Format.units_one, Nat.mul_one]
  exact Nat.sub_le _ _

theorem failure_pos (h : n < binary64.one) : 0 < failure n := by
  have hunits := binary64.units_strictMono h
  rw [Format.units_one] at hunits
  rw [failure, Nat.pos_iff_ne_zero, ne_eq, Format.nearest_eq_zero_iff Nat.one_pos]
  omega

/-- Half a step below one is as near to one as to the number before it, and one is even. -/
theorem failure_eq_one_iff : failure n = binary64.one ↔ n ≤ vanishing := by
  constructor
  · intro h
    by_contra hlt
    have hnext : failure (vanishing + 1) < binary64.one := by decide +kernel
    exact ((failure_antitone (Nat.not_le.mp hlt)).trans_lt hnext).ne h
  · intro h
    have hlast : failure vanishing = binary64.one := by decide +kernel
    exact (failure_le_one n).antisymm (hlast ▸ failure_antitone h)

variable (hp : p.At n) (h1 : n ≤ binary64.one)
include hp h1

theorem failure_at : (Binary.one - p).At (failure n) := by
  have hdiff := sub_at (one_at _) hp (Format.one_lt_infinity _)
    (h1.trans_lt (Format.one_lt_infinity _)) (binary64.units_strictMono.monotone h1)
  rwa [Format.units_one] at hdiff

theorem one_sub_eq_one_iff : Binary.one - p = .one ↔ n ≤ vanishing := by
  have hfailure := failure_at hp h1
  rw [← failure_eq_one_iff]
  constructor
  · intro h
    rw [h] at hfailure
    exact hfailure.unique (one_at _)
  · intro h
    rw [h] at hfailure
    exact (hfailure.eq_positive (by decide)).2

end Failure

end Draw

end DifferentialPrivacy
