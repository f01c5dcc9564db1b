import DifferentialPrivacy.Proofs.Number.DirectedQuotients
import DifferentialPrivacy.Proofs.Release.ConcentratedLoss

set_option autoImplicit false

/-!
# The loss of Laplace noise

The loss at a distance is the upward quotient of the distance by the scale. It covers the exact ratio
unless the remainder of the quotient vanishes. The distance is very small then, but its ratio to the
scale need not be: one that is a little above three halves can be taken for three halves.
-/
namespace DifferentialPrivacy.LaplaceLoss
open Arity Binary ConcentratedLoss

variable {f : Format}

/-! ### Quotients that lose their remainder -/

/-- A number whose last digit is worth the smallest positive value. -/
def smallScale (f : Format) : Binary f := ofBits f (twoPow f.fractionBits + 1)

/-- Three halves of the small scale lie in the middle between the numbers with `k = 1` and `k = 2`. -/
def smallDistance (f : Format) (k : Nat) : Binary f :=
  ofBits f (twoPow f.fractionBits + twoPow (f.fractionBits - 1) + k)

theorem smallScale_lt (f : Format) : twoPow f.fractionBits + 1 < f.infinity := by
  cases f <;> decide

theorem smallDistance_lt (f : Format) {k : Nat} (hk : k ≤ 2) :
    twoPow f.fractionBits + twoPow (f.fractionBits - 1) + k < f.infinity := by
  have hlast : twoPow f.fractionBits + twoPow (f.fractionBits - 1) + 2 < f.infinity := by
    cases f <;> decide
  omega

theorem smallScale_at (f : Format) : (smallScale f).At (twoPow f.fractionBits + 1) :=
  ofBits_at (smallScale_lt f).le

theorem smallDistance_at (f : Format) {k : Nat} (hk : k ≤ 2) :
    (smallDistance f k).At (twoPow f.fractionBits + twoPow (f.fractionBits - 1) + k) :=
  ofBits_at (smallDistance_lt f hk).le

theorem remainder_vanishes (f : Format) :
    f.Vanishes ((smallDistance f 2).remainder (smallScale f)) := by
  rw [(smallDistance_at f le_rfl).vanishes_remainder_iff (smallScale_at f)
    (smallDistance_lt f le_rfl) (Nat.succ_pos _) (smallScale_lt f)]
  cases f <;> decide +kernel

theorem neg_remainder_vanishes (f : Format) :
    f.Vanishes (-(smallDistance f 1).remainder (smallScale f)) := by
  rw [(smallDistance_at f one_le_two).vanishes_neg_remainder_iff (smallScale_at f)
    (smallDistance_lt f one_le_two) (Nat.succ_pos _) (smallScale_lt f)]
  cases f <;> decide +kernel

theorem smallScale_pos (f : Format) : zero.lt (smallScale f) = true :=
  ((zero_at f).lt_iff (smallScale_at f)).mpr (Nat.succ_pos _)

theorem smallScale_finite (f : Format) : (smallScale f).isFinite = true :=
  (smallScale_at f).isFinite_iff.mpr (smallScale_lt f)

theorem smallDistance_nonneg (f : Format) {k : Nat} (hk : k ≤ 2) :
    zero.le (smallDistance f k) = true :=
  ((zero_at f).le_iff (smallDistance_at f hk)).mpr (Nat.zero_le _)

theorem smallDistance_finite (f : Format) {k : Nat} (hk : k ≤ 2) :
    (smallDistance f k).isFinite = true :=
  (smallDistance_at f hk).isFinite_iff.mpr (smallDistance_lt f hk)

/-! ### Bounds in every case -/

/-- Upward quotients are the least bounds on the exact ones. -/
def QuotientsCover (f : Format) : Prop :=
  ∀ x y : Binary f, x.isFinite = true → zero.le x = true → y.isFinite = true → zero.lt y = true →
    (x.divUp y).LeastBound (x.value / y.value)

/-- Downward quotients are the greatest bounds on the exact ones. -/
def QuotientsStayBelow (f : Format) : Prop :=
  ∀ x y : Binary f, x.isFinite = true → zero.le x = true → y.isFinite = true → zero.lt y = true →
    (x / y).isFinite = true → (x.divDown y).GreatestBound (x.value / y.value)

/-- The loss of Laplace noise is never below the exact ratio. -/
def LossesCover [Elementary] (f : Format) : Prop :=
  ∀ (caps : Capabilities) (arity : Arity) (scale : Binary f) (M : _),
    Measurement.laplace caps arity f scale = .ok M → ∀ d : Binary f, d.isFinite = true →
      zero.le d = true → ∀ l, M.map (summedDistance arity d) = .ok l →
        l.AtLeast (d.value / scale.value)

theorem not_quotientsCover (f : Format) : ¬QuotientsCover f := by
  intro hall
  have hbound := hall _ _ (smallDistance_finite f le_rfl) (smallDistance_nonneg f le_rfl)
    (smallScale_finite f) (smallScale_pos f)
  rw [(smallDistance_at f le_rfl).divUp_leastBound_iff (smallScale_at f) (smallDistance_lt f le_rfl)
    (Nat.succ_pos _) (smallScale_lt f)] at hbound
  exact hbound (remainder_vanishes f)

theorem not_quotientsStayBelow (f : Format) : ¬QuotientsStayBelow f := by
  intro hall
  have hfinite : (smallDistance f 1 / smallScale f).isFinite = true := by
    cases f <;> decide +kernel
  have hbound := hall _ _ (smallDistance_finite f one_le_two) (smallDistance_nonneg f one_le_two)
    (smallScale_finite f) (smallScale_pos f) hfinite
  rw [(smallDistance_at f one_le_two).divDown_greatestBound_iff (smallScale_at f)
    (smallDistance_lt f one_le_two) (Nat.succ_pos _) (smallScale_lt f) hfinite] at hbound
  exact hbound (neg_remainder_vanishes f)

section Loss

variable [Elementary]

theorem map_laplace {caps : Capabilities} {arity : Arity} {scale d : Binary f}
    {M : Measurement (arity.summed (.float f)) (.maxDivergence f)}
    (hM : Measurement.laplace caps arity f scale = .ok M) (hdf : d.isFinite = true)
    (hd : zero.le d = true) : ∃ l, M.map (summedDistance arity d) = .ok l ∧
      (l.AtLeast (d.value / scale.value) ↔ ¬f.Vanishes (d.remainder scale)) := by
  obtain ⟨hfinite, hscale, hmap⟩ := of_laplace_eq_ok hM
  obtain ⟨p, q, hp, hq, hpf, hq0, hqf⟩ := exists_positions hdf hd hfinite hscale
  refine ⟨_, hmap d hd, ?_⟩
  rw [← hp.losesQuotient_iff_vanishes hq hpf hq0 hqf]
  obtain ⟨hle, rfl⟩ := hq.eq_positive hq0
  exact divUp_atLeast_iff hq0 hqf hd hdf

theorem not_lossesCover (f : Format) : ¬LossesCover f := by
  intro hall
  obtain ⟨M, hM⟩ := exists_laplace .scalar (smallScale_finite f) (smallScale_pos f)
  have hd := smallDistance_nonneg f le_rfl
  obtain ⟨l, hl, hcovers⟩ := map_laplace hM (smallDistance_finite f le_rfl) hd
  exact hcovers.mp (hall _ _ _ M hM _ (smallDistance_finite f le_rfl) hd l hl) (remainder_vanishes f)

end Loss

/-- Directed quotients are the best bounds on the exact ones, and the loss of Laplace noise covers the
    exact ratio, unless the remainder vanishes. That of a dividend that is zero or not very small does
    not, but some remainders do. -/
theorem directedQuotients_bound [Elementary] (f : Format) :
    (∀ x y : Binary f, x.isFinite = true → zero.le x = true → y.isFinite = true →
      zero.lt y = true →
        ((x.divUp y).LeastBound (x.value / y.value) ↔ ¬f.Vanishes (x.remainder y)) ∧
        ((x / y).isFinite = true →
          ((x.divDown y).GreatestBound (x.value / y.value) ↔ ¬f.Vanishes (-x.remainder y))) ∧
        (x.isZero = true ∨ (f.remainderBound : ℚ) / twoPow f.unitBits ≤ x.value →
          ¬f.Vanishes (x.remainder y) ∧ ¬f.Vanishes (-x.remainder y))) ∧
    (∀ (caps : Capabilities) (arity : Arity) (scale : Binary f) (M : _),
      Measurement.laplace caps arity f scale = .ok M → ∀ d : Binary f, d.isFinite = true →
        zero.le d = true → ∃ l, M.map (summedDistance arity d) = .ok l ∧
          (l.AtLeast (d.value / scale.value) ↔ ¬f.Vanishes (d.remainder scale))) ∧
    ¬QuotientsCover f ∧ ¬QuotientsStayBelow f ∧ ¬LossesCover f := by
  refine ⟨?_, fun _ _ _ _ hM _ hdf hd => map_laplace hM hdf hd, not_quotientsCover f,
    not_quotientsStayBelow f, not_lossesCover f⟩
  intro x y hxf hx hyf hy
  obtain ⟨p, q, hp, hq, hpf, hq0, hqf⟩ := exists_positions hxf hx hyf hy
  exact ⟨hp.divUp_leastBound_iff hq hpf hq0 hqf, hp.divDown_greatestBound_iff hq hpf hq0 hqf,
    hp.not_vanishes hq hpf hq0 hqf⟩

theorem directedQuotients_bound_thirds :
    ((ofInt .binary64 7).divUp (ofInt _ 3)).LeastBound (7 / 3) ∧
    ((ofInt .binary64 7).divDown (ofInt _ 3)).GreatestBound (7 / 3) ∧
    ∃ M l, @Measurement.laplace .machine .all .vector .binary64 (ofInt _ 3) = .ok M ∧
      M.map (summedDistance .vector (ofInt _ 7)) = .ok l ∧ l.AtLeast (7 / 3) := by
  let _ := Elementary.machine
  obtain ⟨hquotient, hloss, -⟩ := directedQuotients_bound .binary64
  have hscale : zero.lt (ofInt .binary64 3) = true := by decide +kernel
  have hfinite : (ofInt .binary64 3).isFinite = true := by decide +kernel
  have hd : zero.le (ofInt .binary64 7) = true := by decide +kernel
  have hdf : (ofInt .binary64 7).isFinite = true := by decide +kernel
  have hseven : (ofInt .binary64 7).value = 7 := value_ofInt_of_le (n := 7) (by decide)
  have hthree : (ofInt .binary64 3).value = 3 := value_ofInt_of_le (n := 3) (by decide)
  have hlarge : (Format.remainderBound .binary64 : ℚ) / twoPow (Format.unitBits .binary64) ≤ 1 :=
    (div_le_one (twoPow_unitBits_pos _)).mpr (Nat.cast_le.mpr (Format.remainderBound_le _))
  obtain ⟨hup, hdown, hkept⟩ := hquotient _ _ hdf hd hfinite hscale
  obtain ⟨hkept, hkept'⟩ := hkept (Or.inr (by rw [hseven]; exact hlarge.trans (by norm_num)))
  obtain ⟨M, hM⟩ := exists_laplace .vector hfinite hscale
  obtain ⟨l, hl, hcovers⟩ := hloss _ _ _ M hM _ hdf hd
  rw [hseven, hthree] at hup hdown hcovers
  exact ⟨hup.mpr hkept, (hdown (by decide +kernel)).mpr hkept', M, l, hM, hl, hcovers.mpr hkept⟩

/-- Three halves are taken for an upward quotient that is above them, for a downward one that is below,
    and for the loss at a distance whose ratio to the scale is above them. -/
theorem directedQuotients_miss_binary64 :
    (ofBits .binary64 0x0018000000000002).divUp (ofBits _ 0x0010000000000001) =
        ofBits _ 0x3ff8000000000000 ∧
    (ofBits .binary64 0x0018000000000001).divDown (ofBits _ 0x0010000000000001) =
        ofBits _ 0x3ff8000000000000 ∧
    (∃ M, @Measurement.laplace .machine .all .scalar .binary64 (ofBits _ 0x0010000000000001) = .ok M ∧
      M.map (summedDistance .scalar (ofBits _ 0x0018000000000002)) =
        .ok (ofBits _ 0x3ff8000000000000)) ∧
    (ofBits .binary64 0x0018000000000001).value / (ofBits .binary64 0x0010000000000001).value <
        (ofBits .binary64 0x3ff8000000000000).value ∧
    (ofBits .binary64 0x3ff8000000000000).value <
        (ofBits .binary64 0x0018000000000002).value / (ofBits .binary64 0x0010000000000001).value := by
  let _ := Elementary.machine
  have hvalue : (ofBits .binary64 0x3ff8000000000000).value = 3 / 2 := by
    have hunits : (ofBits .binary64 0x3ff8000000000000).units * 2 =
        3 * twoPow (Format.unitBits .binary64) := by decide +kernel
    unfold value
    rw [div_eq_div_iff (twoPow_unitBits_pos _).ne' two_ne_zero]
    exact_mod_cast hunits
  have hscale : (ofBits .binary64 0x0010000000000001).units = 4503599627370497 := by decide +kernel
  have hlow : (ofBits .binary64 0x0018000000000001).units = 6755399441055745 := by decide +kernel
  have hhigh : (ofBits .binary64 0x0018000000000002).units = 6755399441055746 := by decide +kernel
  refine ⟨by decide +kernel, by decide +kernel, ?_, ?_, ?_⟩
  · have hpositive : zero.lt (ofBits .binary64 0x0010000000000001) = true := by decide +kernel
    obtain ⟨M, hM⟩ := exists_laplace .scalar (by decide +kernel) hpositive
    have hmap := (of_laplace_eq_ok hM).2.2 (ofBits .binary64 0x0018000000000002) (by decide +kernel)
    rw [show Measurement.laplaceLoss _ _ = ofBits .binary64 0x3ff8000000000000 by decide +kernel]
      at hmap
    exact ⟨M, hM, hmap⟩
  · rw [hvalue, value_div_value, hscale, hlow]
    norm_num
  · rw [hvalue, value_div_value, hscale, hhigh]
    norm_num

end DifferentialPrivacy.LaplaceLoss
