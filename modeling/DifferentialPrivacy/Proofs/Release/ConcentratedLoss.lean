import DifferentialPrivacy.Number.Machine
import DifferentialPrivacy.Proofs.Accounting.MappedLoss
import DifferentialPrivacy.Proofs.Number.HalfSquares
import DifferentialPrivacy.Proofs.Number.NumberLine
import DifferentialPrivacy.Proofs.Release.DiscreteLoss

set_option autoImplicit false

/-!
# Which concentrated losses cover the exact ones

The loss of Gaussian noise and the conversion of a pure loss both halve the square of a number. The
conversion covers half the exact square unless the square loses its remainder and is even. The loss of
Gaussian noise squares a quotient that may have lost a remainder of its own, if the distance is very
small. In both, a loss that is not zero can come to cost nothing.
-/
namespace DifferentialPrivacy.ConcentratedLoss
open Arity Binary

variable {f : Format} {scale d : Binary f}

/-! ### The loss of Gaussian noise -/

/-- Neither the quotient nor its square loses a remainder that half the square needs. -/
def KeepsRemainders (scale d : Binary f) : Prop :=
  ¬d.LosesQuotient scale ∧ ¬(d.divUp scale).LosesSquare

section Loss

variable (hscale : zero.lt scale = true) (hfinite : scale.isFinite = true)
  (hd : zero.le d = true) (hdf : d.isFinite = true)
include hscale hfinite hd

theorem gaussianLoss_isZero_iff : (Measurement.gaussianLoss scale d).isZero = true ↔
    (d.divUp scale).value ^ 2 ≤ 1 / (2 * twoPow f.unitBits) := by
  obtain ⟨q, hq, hq0, rfl⟩ := eq_positive_of_zero_lt hscale
  exact halfSquare_isZero_iff (zero_le_divUp hq0 (isFinite_positive.mp hfinite) hd)

include hdf

theorem gaussianLoss_atLeast (h : KeepsRemainders scale d) :
    (Measurement.gaussianLoss scale d).AtLeast ((d.value / scale.value) ^ 2 / 2) := by
  obtain ⟨q, hq, hq0, rfl⟩ := eq_positive_of_zero_lt hscale
  have hqf := isFinite_positive.mp hfinite
  have hratio := (divUp_atLeast_iff hq0 hqf hd hdf).mpr h.1
  have hsquare := h.2
  have hr0 : zero.le (d.divUp (signed false q hq)) = true := zero_le_divUp hq0 hqf hd
  unfold Measurement.gaussianLoss
  generalize d.divUp (signed false q hq) = r at hratio hsquare hr0 ⊢
  rcases hratio with rfl | ⟨hrf, hratio⟩
  · rw [squareUp_infinity, two_eq, divUp_infinity _ f.one_add_lt_infinity]
    exact Or.inl rfl
  · have hnonneg : 0 ≤ d.value / (signed false q hq).value :=
      div_nonneg (value_nonneg_of_zero_le hd) (value_nonneg hq)
    apply ((halfSquare_atLeast_iff hr0 hrf).mpr hsquare).mono
    gcongr

/-- At distance zero there is nothing to lose, and a distance that is not very small keeps the
    remainder of its quotient. -/
theorem keepsRemainders (h : d.isZero = true ∨
    (f.remainderBound : ℚ) / twoPow f.unitBits ≤ d.value ∧
      (f.squareBound : ℚ) / twoPow f.unitBits ≤ d.value / scale.value) :
    KeepsRemainders scale d := by
  obtain ⟨q, hq, hq0, rfl⟩ := eq_positive_of_zero_lt hscale
  obtain ⟨p, hp⟩ := exists_at_of_zero_le hd
  have hqf := isFinite_positive.mp hfinite
  have hr := hp.divUp_at hq hq0 hqf
  have hkept : ¬d.LosesQuotient (signed false q hq) :=
    not_losesQuotient hq0 hd (h.imp_right And.left)
  refine ⟨hkept, ?_⟩
  rw [hr.losesSquare_iff]
  intro hlost
  rcases h with h0 | ⟨-, hratio⟩
  · obtain rfl := hp.isZero_iff.mp h0
    exact f.not_losesSquare_zero (Format.quotientUp_zero hq0 ▸ hlost)
  · rcases (divUp_atLeast_iff hq0 hqf hd hdf).mpr hkept with hinf | ⟨-, hle⟩
    · rw [hinf] at hr
      exact absurd (hr.unique (infinity_at f)) hlost.lt_infinity.ne
    · have hbound := hratio.trans hle
      rw [hr.value_eq, div_le_div_iff_of_pos_right (twoPow_unitBits_pos f), Nat.cast_le] at hbound
      exact absurd hlost.units_lt (Nat.not_lt.mpr hbound)

end Loss

/-! ### The maps of the mechanisms -/

theorem checkDistance_eq_ok (h : zero.le d = true) : (NumType.float f).checkDistance d = .ok () := by
  obtain ⟨p, hp⟩ := exists_at_of_zero_le h
  exact NumType.checkDistance_eq_ok_iff.mpr ⟨p, hp.ordinal?_eq, Int.natCast_nonneg p⟩

section Mechanisms

variable {caps : Capabilities} {m : Metric}

theorem of_pureToConcentrated_eq_ok {M : Measurement m (.maxDivergence f)}
    {N : Measurement m (.zeroConcentratedDivergence f)}
    (h : Measurement.pureToConcentrated caps M = .ok N) {d : m.Distance} {ε : Binary f}
    (hε : M.map d = .ok ε) : N.map d = .ok (ε.squareUp.divUp .two) := by
  obtain ⟨-, rfl⟩ := Measurement.pureToConcentrated_eq_ok_iff.mp h
  rw [Measurement.map_mapLoss, hε]
  rfl

variable [Elementary] {arity : Arity}

theorem of_gaussian_eq_ok
    {M : Measurement (arity.euclidean (.float f)) (.zeroConcentratedDivergence f)}
    (h : Measurement.gaussian caps arity f scale = .ok M) :
    scale.isFinite = true ∧ zero.lt scale = true ∧ ∀ d : Binary f, zero.le d = true →
      M.map (euclideanDistance arity d) = .ok (Measurement.gaussianLoss scale d) := by
  obtain ⟨-, ⟨hfinite, hscale⟩, rfl⟩ := Measurement.gaussian_eq_ok_iff.mp h
  refine ⟨hfinite, hscale, fun d hd => ?_⟩
  cases arity with
  | scalar | vector => exact Measurement.map_of_legal (checkDistance_eq_ok hd)

theorem of_laplace_eq_ok {M : Measurement (arity.summed (.float f)) (.maxDivergence f)}
    (h : Measurement.laplace caps arity f scale = .ok M) :
    scale.isFinite = true ∧ zero.lt scale = true ∧ ∀ d : Binary f, zero.le d = true →
      M.map (summedDistance arity d) = .ok (Measurement.laplaceLoss scale d) := by
  obtain ⟨-, ⟨hfinite, hscale⟩, rfl⟩ := Measurement.laplace_eq_ok_iff.mp h
  refine ⟨hfinite, hscale, fun d hd => ?_⟩
  cases arity with
  | scalar | vector => exact Measurement.map_of_legal (checkDistance_eq_ok hd)

theorem exists_gaussian (arity : Arity) (hfinite : scale.isFinite = true)
    (hscale : zero.lt scale = true) : ∃ M, Measurement.gaussian .all arity f scale = .ok M :=
  ⟨_, Measurement.gaussian_eq_ok_iff.mpr ⟨rfl, ⟨hfinite, hscale⟩, rfl⟩⟩

theorem exists_laplace (arity : Arity) (hfinite : scale.isFinite = true)
    (hscale : zero.lt scale = true) : ∃ M, Measurement.laplace .all arity f scale = .ok M :=
  ⟨_, Measurement.laplace_eq_ok_iff.mpr ⟨rfl, ⟨hfinite, hscale⟩, rfl⟩⟩

end Mechanisms

/-! ### Losses below the exact one -/

/-- Converted losses are never below half the square of the pure one. -/
def ConversionCovers (f : Format) : Prop :=
  ∀ (m : Metric) (caps : Capabilities) (M : Measurement m (.maxDivergence f)) (N : _),
    Measurement.pureToConcentrated caps M = .ok N → ∀ d ε, M.map d = .ok ε → ε.isFinite = true →
      zero.le ε = true → ∀ l, N.map d = .ok l → l.AtLeast (ε.value ^ 2 / 2)

def GaussianCovers [Elementary] (f : Format) : Prop :=
  ∀ (caps : Capabilities) (arity : Arity) (scale : Binary f) (M : _),
    Measurement.gaussian caps arity f scale = .ok M → ∀ d : Binary f, d.isFinite = true →
      zero.le d = true → ∀ l, M.map (euclideanDistance arity d) = .ok l →
        l.AtLeast ((d.value / scale.value) ^ 2 / 2)

theorem zero_lt_ofInt_one (f : Format) : zero.lt (ofInt f 1) = true := by
  rw [ofInt_one]
  cases f <;> decide

theorem isFinite_ofInt_one (f : Format) : (ofInt f 1).isFinite = true := by
  rw [ofInt_one]
  cases f <;> decide

section Refutation

variable [Elementary]

/-- At the largest scale, distance one costs nothing. -/
theorem exists_gaussian_zero (f : Format) :
    ∃ M, Measurement.gaussian .all .scalar f (NumType.max (.float f)) = .ok M ∧
      M.map (euclideanDistance .scalar (ofInt f 1)) = .ok zero := by
  have hfinite : (NumType.max (.float f)).isFinite = true := by cases f <;> decide
  have hscale : zero.lt (NumType.max (.float f)) = true := by cases f <;> decide
  obtain ⟨M, hM⟩ := exists_gaussian .scalar hfinite hscale
  have hmap := (of_gaussian_eq_ok hM).2.2 (ofInt f 1) (zero_le_of_zero_lt (zero_lt_ofInt_one f))
  rw [DiscreteLoss.gaussianLoss_max] at hmap
  exact ⟨M, hM, hmap⟩

theorem exists_conversion_zero (f : Format) :
    ∃ M N ε, Measurement.laplace .all .scalar f (NumType.max (.float f)) = .ok M ∧
      Measurement.pureToConcentrated .all M = .ok N ∧
      M.map (summedDistance .scalar (ofInt f 1)) = .ok ε ∧ ε.isFinite = true ∧
      zero.lt ε = true ∧ N.map (summedDistance .scalar (ofInt f 1)) = .ok zero := by
  have hfinite : (NumType.max (.float f)).isFinite = true := by cases f <;> decide
  have hscale : zero.lt (NumType.max (.float f)) = true := by cases f <;> decide
  obtain ⟨M, hM⟩ := exists_laplace .scalar hfinite hscale
  have hmap := (of_laplace_eq_ok hM).2.2 (ofInt f 1) (zero_le_of_zero_lt (zero_lt_ofInt_one f))
  obtain ⟨N, hN⟩ : ∃ N, Measurement.pureToConcentrated .all M = .ok N := ⟨_, rfl⟩
  have hmap' := of_pureToConcentrated_eq_ok hN hmap
  rw [show (Measurement.laplaceLoss _ _).squareUp.divUp two = _ from
    DiscreteLoss.gaussianLoss_max f] at hmap'
  exact ⟨M, N, _, hM, hN, hmap, by cases f <;> decide +kernel, by cases f <;> decide +kernel, hmap'⟩

theorem not_gaussianCovers (f : Format) : ¬GaussianCovers f := by
  intro hall
  obtain ⟨M, hM, hmap⟩ := exists_gaussian_zero f
  have hscale : zero.lt (NumType.max (.float f)) = true := by cases f <;> decide
  have hd := zero_lt_ofInt_one f
  have hpos := div_pos (value_pos_of_zero_lt hd) (value_pos_of_zero_lt hscale)
  exact not_zero_atLeast (by positivity) (hall .all .scalar _ M hM (ofInt f 1)
    (isFinite_ofInt_one f) (zero_le_of_zero_lt hd) _ hmap)

theorem not_conversionCovers (f : Format) : ¬ConversionCovers f := by
  intro hall
  obtain ⟨M, N, ε, -, hN, hε, hfinite, hpos, hmap⟩ := exists_conversion_zero f
  have hvalue := value_pos_of_zero_lt hpos
  exact not_zero_atLeast (by positivity)
    (hall _ .all M N hN _ ε hε hfinite (zero_le_of_zero_lt hpos) _ hmap)

end Refutation

/-- Conversion covers half the square of a loss unless the square loses a remainder that it needs, and
    the loss of Gaussian noise covers half the square of the exact ratio if no remainder is lost on the
    way. Numbers from the bound on, and only those, are safe to square. Below it a loss can be too
    small, and no more than zero. -/
theorem concentratedLosses_cover [Elementary] (f : Format) :
    (∀ (m : Metric) (caps : Capabilities) (M : Measurement m (.maxDivergence f)) (N : _),
      Measurement.pureToConcentrated caps M = .ok N → ∀ d ε, M.map d = .ok ε → ε.isFinite = true →
        zero.le ε = true → ∃ l, N.map d = .ok l ∧
          (l.AtLeast (ε.value ^ 2 / 2) ↔ ¬ε.LosesSquare) ∧
          (l.isZero = true ↔ ε.value ^ 2 ≤ 1 / (2 * twoPow f.unitBits))) ∧
    (∀ (caps : Capabilities) (arity : Arity) (scale : Binary f) (M : _),
      Measurement.gaussian caps arity f scale = .ok M → ∀ d : Binary f, d.isFinite = true →
        zero.le d = true → ∃ l, M.map (euclideanDistance arity d) = .ok l ∧
          (KeepsRemainders scale d → l.AtLeast ((d.value / scale.value) ^ 2 / 2)) ∧
          (d.isZero = true ∨ (f.remainderBound : ℚ) / twoPow f.unitBits ≤ d.value ∧
            (f.squareBound : ℚ) / twoPow f.unitBits ≤ d.value / scale.value →
              KeepsRemainders scale d) ∧
          (l.isZero = true ↔ (d.divUp scale).value ^ 2 ≤ 1 / (2 * twoPow f.unitBits))) ∧
    (∀ x : Binary f, zero.le x = true →
      ((∀ y : Binary f, y.isFinite = true → x.le y = true → ¬y.LosesSquare) ↔
        (f.squareBound : ℚ) / twoPow f.unitBits ≤ x.value)) ∧
    ¬ConversionCovers f ∧ ¬GaussianCovers f := by
  refine ⟨?_, ?_, fun x => forall_keeps_square_iff, not_conversionCovers f, not_gaussianCovers f⟩
  · intro m caps M N hN d ε hε hfinite hε0
    exact ⟨_, of_pureToConcentrated_eq_ok hN hε, halfSquare_atLeast_iff hε0 hfinite,
      halfSquare_isZero_iff hε0⟩
  · intro caps arity scale M hM d hdf hd
    obtain ⟨hfinite, hscale, hmap⟩ := of_gaussian_eq_ok hM
    exact ⟨_, hmap d hd, gaussianLoss_atLeast hscale hfinite hd hdf,
      keepsRemainders hscale hfinite hd hdf, gaussianLoss_isZero_iff hscale hfinite hd⟩

theorem concentratedLosses_cover_thirds :
    (∃ M N ε l, @Measurement.laplace .machine .all .scalar .binary64 (ofInt _ 3) = .ok M ∧
      Measurement.pureToConcentrated .all M = .ok N ∧
      M.map (summedDistance .scalar (ofInt _ 7)) = .ok ε ∧ ε.isFinite = true ∧
      N.map (summedDistance .scalar (ofInt _ 7)) = .ok l ∧ l.AtLeast (ε.value ^ 2 / 2)) ∧
    ∃ M l, @Measurement.gaussian .machine .all .vector .binary64 (ofInt _ 3) = .ok M ∧
      M.map (euclideanDistance .vector (ofInt _ 7)) = .ok l ∧ l.AtLeast ((7 / 3) ^ 2 / 2) ∧
      l.isZero = false := by
  let _ := Elementary.machine
  obtain ⟨hconversion, hgaussian, hbound, -, -⟩ := concentratedLosses_cover .binary64
  have hscale : zero.lt (ofInt .binary64 3) = true := by decide +kernel
  have hfinite : (ofInt .binary64 3).isFinite = true := by decide +kernel
  have hd : zero.le (ofInt .binary64 7) = true := by decide +kernel
  have hseven : (ofInt .binary64 7).value = 7 := value_ofInt_of_le (n := 7) (by decide)
  have hthree : (ofInt .binary64 3).value = 3 := value_ofInt_of_le (n := 3) (by decide)
  have hsquare : (Format.squareBound .binary64 : ℚ) / twoPow (Format.unitBits .binary64) ≤ 1 :=
    (div_le_one (twoPow_unitBits_pos _)).mpr (Nat.cast_le.mpr (Format.squareBound_le _))
  have hquotient : (Format.remainderBound .binary64 : ℚ) / twoPow (Format.unitBits .binary64) ≤ 1 :=
    (div_le_one (twoPow_unitBits_pos _)).mpr (Nat.cast_le.mpr (Format.remainderBound_le _))
  obtain ⟨L, hL⟩ := exists_laplace .scalar hfinite hscale
  obtain ⟨N, hN⟩ : ∃ N, Measurement.pureToConcentrated .all L = .ok N := ⟨_, rfl⟩
  obtain ⟨G, hG⟩ := exists_gaussian .vector hfinite hscale
  have hε := (of_laplace_eq_ok hL).2.2 _ hd
  have hεf : (Measurement.laplaceLoss (ofInt .binary64 3) (ofInt _ 7)).isFinite = true := by
    decide +kernel
  have hε1 : one.le (Measurement.laplaceLoss (ofInt .binary64 3) (ofInt _ 7)) = true := by
    decide +kernel
  refine ⟨?_, ?_⟩
  · obtain ⟨l, hl, hcovers, -⟩ := hconversion _ _ L N hN _ _ hε hεf (by decide +kernel)
    refine ⟨L, N, _, l, hL, hN, hε, hεf, hl, hcovers.mpr ?_⟩
    exact (hbound one (by decide +kernel)).mpr (hsquare.trans (value_one _).ge) _ hεf hε1
  · obtain ⟨l, hl, hcovers, hkeeps, hzero⟩ := hgaussian _ _ _ G hG _ (by decide +kernel) hd
    rw [hseven, hthree] at hcovers hkeeps
    have hkept := hkeeps (Or.inr ⟨hquotient.trans (by norm_num), hsquare.trans (by norm_num)⟩)
    refine ⟨G, l, hG, hl, hcovers hkept, ?_⟩
    obtain rfl := Except.ok.inj (((of_gaussian_eq_ok hG).2.2 _ hd).symm.trans hl)
    decide +kernel

/-- Three losses below the exact one: a distance and a pure loss that cost nothing, and a quotient just
    above three halves of two very small numbers. -/
theorem concentratedLosses_lt_binary64 :
    (∃ M, @Measurement.gaussian .machine .all .scalar .binary64 (NumType.max (.float _)) = .ok M ∧
      M.map (euclideanDistance .scalar (ofInt _ 1)) = .ok zero) ∧
    (∃ M l, @Measurement.gaussian .machine .all .scalar .binary64
        (ofBits _ 0x0010000000000001) = .ok M ∧
      M.map (euclideanDistance .scalar (ofBits _ 0x0018000000000002)) = .ok l ∧
      l.isFinite = true ∧ l.value < ((ofBits .binary64 0x0018000000000002).value /
        (ofBits .binary64 0x0010000000000001).value) ^ 2 / 2) ∧
    ∃ M N ε, @Measurement.laplace .machine .all .scalar .binary64 (NumType.max (.float _)) = .ok M ∧
      Measurement.pureToConcentrated .all M = .ok N ∧
      M.map (summedDistance .scalar (ofInt _ 1)) = .ok ε ∧ 0 < ε.value ∧
      N.map (summedDistance .scalar (ofInt _ 1)) = .ok zero := by
  let _ := Elementary.machine
  have hratio : (ofBits .binary64 0x0018000000000002).value /
      (ofBits .binary64 0x0010000000000001).value = 6755399441055746 / 4503599627370497 := by
    have hd : (ofBits .binary64 0x0018000000000002).units = 6755399441055746 := by decide +kernel
    have hs : (ofBits .binary64 0x0010000000000001).units = 4503599627370497 := by decide +kernel
    unfold value
    rw [div_div_div_cancel_right₀ (twoPow_unitBits_pos _).ne', hd, hs, Int.cast_ofNat,
      Int.cast_ofNat]
  have hloss : Measurement.gaussianLoss (ofBits .binary64 0x0010000000000001)
      (ofBits _ 0x0018000000000002) = ofBits _ 0x3ff2000000000000 := by decide +kernel
  have hvalue : (ofBits .binary64 0x3ff2000000000000).value = 9 / 8 := by
    have hunits : 8 * (ofBits .binary64 0x3ff2000000000000).units =
        9 * twoPow (Format.unitBits .binary64) := by decide +kernel
    unfold value
    rw [div_eq_div_iff (twoPow_unitBits_pos _).ne' (by norm_num), mul_comm]
    exact_mod_cast hunits
  refine ⟨exists_gaussian_zero _, ?_, ?_⟩
  · have hscale : zero.lt (ofBits .binary64 0x0010000000000001) = true := by decide +kernel
    obtain ⟨M, hM⟩ := exists_gaussian .scalar (by decide +kernel) hscale
    have hmap := (of_gaussian_eq_ok hM).2.2 (ofBits .binary64 0x0018000000000002)
      (by decide +kernel)
    rw [hloss] at hmap
    refine ⟨M, _, hM, hmap, by decide +kernel, ?_⟩
    rw [hratio, hvalue]
    norm_num
  · obtain ⟨M, N, ε, hM, hN, hε, -, hpos, hzero⟩ := exists_conversion_zero .binary64
    exact ⟨M, N, ε, hM, hN, hε, value_pos_of_zero_lt hpos, hzero⟩

end DifferentialPrivacy.ConcentratedLoss
