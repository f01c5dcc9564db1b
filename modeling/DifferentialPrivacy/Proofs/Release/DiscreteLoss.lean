import DifferentialPrivacy.Number.Machine
import DifferentialPrivacy.Proofs.Dataset.Records
import DifferentialPrivacy.Proofs.Number.DirectedBounds
import DifferentialPrivacy.Proofs.Release.Mechanism
import Mathlib.Tactic.Positivity

set_option autoImplicit false

/-!
# Which distances the losses of discrete noise cover

The loss is computed in a format from the distance as that format has it. It covers the exact loss of
the rounded distance, and so that of the distance itself unless the rounding went down, which takes a
type with numbers beyond a significand. The loss of Gaussian noise is covered as well where the ratio
of distance and scale is not so small that its square loses its remainder.
-/
namespace DifferentialPrivacy.DiscreteLoss
open Arity Binary

variable {t : IntType} {f : Format}

/-- A finite loss is no less than the exact one. -/
def Covers (l : Binary f) (exact : ℚ) : Prop := l.isFinite = true → exact ≤ l.value

theorem Covers.mono {l : Binary f} {x y : ℚ} (h : Covers l y) (hxy : x ≤ y) : Covers l x :=
  fun hl => hxy.trans (h hl)

/-! ### The losses of distances that are not very small -/

section Positive

variable {p q : Nat} (hp : p ≤ f.infinity) (hq : q ≤ f.infinity)

theorem laplaceLoss_covers (hp1 : f.remainderBound ≤ f.units p) (hq0 : 0 < q)
    (hqf : q < f.infinity) :
    Covers (Measurement.laplaceLoss (signed false q hq) (signed false p hp))
      ((signed false p hp).value / (signed false q hq).value) := by
  intro h
  exact (div_value_le_divUp_iff hp hq hq0 hqf h).mpr
    (Format.not_remainderVanishes_quotient hp1 hq0)

theorem gaussianLoss_covers (hp1 : f.remainderBound ≤ f.units p) (hq0 : 0 < q)
    (hqf : q < f.infinity) (hratio : (f.squareBound : ℚ) / twoPow f.unitBits ≤
      (signed false p hp).value / (signed false q hq).value) :
    Covers (Measurement.gaussianLoss (signed false q hq) (signed false p hp))
      (((signed false p hp).value / (signed false q hq).value) ^ 2 / 2) := by
  have hlaplace := laplaceLoss_covers hp hq hp1 hq0 hqf
  have hnonneg : 0 ≤ (signed false p hp).value / (signed false q hq).value :=
    div_nonneg (value_nonneg _) (value_nonneg _)
  generalize (signed false p hp).value / (signed false q hq).value = ratio at *
  obtain ⟨r, hr, hquotient⟩ := exists_divUp_eq hp hq hq0 hqf
  obtain ⟨s, hs, hsquare⟩ := exists_squareUp_eq hr
  unfold Measurement.laplaceLoss at hlaplace
  rw [hquotient] at hlaplace
  unfold Measurement.gaussianLoss
  rw [hquotient, hsquare]
  intro h
  have hsf : s < f.infinity := by
    rw [two_eq] at h
    exact lt_infinity_of_divUp hs _ f.one_add_lt_infinity h
  have hfinite : (signed false r hr).squareUp.isFinite = true := by
    rw [hsquare]
    exact isFinite_positive.mpr hsf
  have hle : ratio ≤ (signed false r hr).value :=
    hlaplace (isFinite_positive.mpr (lt_infinity_of_squareUp hr hfinite))
  have hlarge : f.squareBound ≤ f.units r := by
    have hcast := hratio.trans hle
    rw [value_positive, div_le_div_iff_of_pos_right (twoPow_unitBits_pos f)] at hcast
    exact Nat.cast_le.mp hcast
  have hsq := (sq_value_le_squareUp_iff hr hfinite).mpr (Format.not_remainderVanishes_square hlarge)
  rw [hsquare] at hsq
  calc
    ratio ^ 2 / 2 ≤ (signed false r hr).value ^ 2 / 2 := by gcongr
    _ ≤ (signed false s hs).value / 2 := by gcongr
    _ ≤ _ := half_value_le_divUp_two hs h

end Positive

/-- The ratio is far below the square root of the smallest positive value. -/
theorem gaussianLoss_max (f : Format) :
    Measurement.gaussianLoss (NumType.max (.float f)) (ofInt f 1) = zero := by
  cases f <;> decide +kernel

/-! ### The maps of the mechanisms -/

section Mechanisms

theorem discreteLoss_zero {scale : Binary f} (loss : Binary f → Binary f) {d : Integer t}
    (hd : d.val = 0) : Measurement.discreteLoss (s := .int t) scale loss d = .ok .zero := by
  change Except.ok (if (ofInt f d.val).isZero then _ else _) = _
  rw [hd, ofInt_zero]
  rfl

theorem discreteLoss_of_pos {scale : Binary f} (hscale : zero.lt scale = true)
    (loss : Binary f → Binary f) {d : Integer t} (hd : 0 < d.val) :
    Measurement.discreteLoss (s := .int t) scale loss d = .ok (loss (ofInt f d.val)) := by
  obtain ⟨q, hq, hq0, rfl⟩ := eq_positive_of_zero_lt hscale
  obtain ⟨p, hp, hone, hcast⟩ := exists_ofInt_eq (f := f) hd
  have hp0 : p ≠ 0 := by
    rintro rfl
    rw [Format.units_zero] at hone
    exact absurd hone (Nat.not_le.mpr (twoPow_pos _))
  change Except.ok (if (ofInt f d.val).isZero then _ else _) = _
  rw [hcast, isZero_positive hp0, isZero_positive hq0.ne']
  rfl

theorem checkDistance_of_nonneg {d : Integer t} (hd : 0 ≤ d.val) :
    (NumType.int t).checkDistance d = .ok () := by
  have hlt : (NumType.int t).lt d (NumType.int t).zero = false :=
    decide_eq_false (Int.not_lt.mpr hd)
  unfold NumType.checkDistance
  rw [hlt]
  rfl

variable [Elementary] {caps : Capabilities} {arity : Arity} {scale : Binary f}

theorem of_discreteLaplace_eq_ok {M : Measurement (arity.summed (.int t)) (.maxDivergence f)}
    (h : Measurement.discreteLaplace caps arity t f scale = .ok M) :
    scale.isFinite = true ∧ ∀ d : Integer t, 0 ≤ d.val → M.map (summedDistance arity d) =
      Measurement.discreteLoss (s := .int t) scale (Measurement.laplaceLoss scale) d := by
  obtain ⟨-, ⟨hfinite, -⟩, rfl⟩ := Measurement.discreteLaplace_eq_ok_iff.mp h
  refine ⟨hfinite, fun d hd => ?_⟩
  cases arity with
  | scalar | vector => exact Measurement.map_of_legal (checkDistance_of_nonneg hd)

theorem of_discreteGaussian_eq_ok
    {M : Measurement (arity.euclidean (.int t)) (.zeroConcentratedDivergence f)}
    (h : Measurement.discreteGaussian caps arity t f scale = .ok M) :
    scale.isFinite = true ∧ ∀ d : Integer t, 0 ≤ d.val → M.map (euclideanDistance arity d) =
      Measurement.discreteLoss (s := .int t) scale (Measurement.gaussianLoss scale) d := by
  obtain ⟨-, ⟨hfinite, -⟩, rfl⟩ := Measurement.discreteGaussian_eq_ok_iff.mp h
  refine ⟨hfinite, fun d hd => ?_⟩
  cases arity with
  | scalar | vector => exact Measurement.map_of_legal (checkDistance_of_nonneg hd)

theorem exists_discreteLaplace (t : IntType) (arity : Arity) (hfinite : scale.isFinite = true)
    (hscale : zero.le scale = true) :
    ∃ M, Measurement.discreteLaplace .all arity t f scale = .ok M :=
  ⟨_, Measurement.discreteLaplace_eq_ok_iff.mpr ⟨rfl, ⟨hfinite, hscale⟩, rfl⟩⟩

theorem exists_discreteGaussian (t : IntType) (arity : Arity) (hfinite : scale.isFinite = true)
    (hscale : zero.le scale = true) :
    ∃ M, Measurement.discreteGaussian .all arity t f scale = .ok M :=
  ⟨_, Measurement.discreteGaussian_eq_ok_iff.mpr ⟨rfl, ⟨hfinite, hscale⟩, rfl⟩⟩

theorem map_laplace_covers {M : Measurement (arity.summed (.int t)) (.maxDivergence f)}
    (h : Measurement.discreteLaplace caps arity t f scale = .ok M) (hscale : zero.lt scale = true)
    {d : Integer t} (hd : 0 ≤ d.val) : ∃ l, M.map (summedDistance arity d) = .ok l ∧
      ∀ exact ≤ (ofInt f d.val).value, Covers l (exact / scale.value) := by
  obtain ⟨hfinite, hmap⟩ := of_discreteLaplace_eq_ok h
  obtain ⟨q, hq, hq0, rfl⟩ := eq_positive_of_zero_lt hscale
  have hpos := value_pos hq hq0
  have hrounded : ∃ l, M.map (summedDistance arity d) = .ok l ∧
      Covers l ((ofInt f d.val).value / (signed false q hq).value) := by
    rw [hmap d hd]
    rcases hd.eq_or_lt with h0 | hd0
    · refine ⟨_, discreteLoss_zero _ h0.symm, fun _ => ?_⟩
      rw [← h0, ofInt_zero, value_zero, zero_div]
    · refine ⟨_, discreteLoss_of_pos hscale _ hd0, ?_⟩
      obtain ⟨p, hp, hone, hcast⟩ := exists_ofInt_eq (f := f) hd0
      rw [hcast]
      exact laplaceLoss_covers hp hq (f.remainderBound_le.trans hone) hq0
        (isFinite_positive.mp hfinite)
  obtain ⟨l, hl, hcover⟩ := hrounded
  refine ⟨l, hl, fun exact hexact => hcover.mono ?_⟩
  exact (div_le_div_iff_of_pos_right hpos).mpr hexact

theorem map_gaussian_covers
    {M : Measurement (arity.euclidean (.int t)) (.zeroConcentratedDivergence f)}
    (h : Measurement.discreteGaussian caps arity t f scale = .ok M) (hscale : zero.lt scale = true)
    {d : Integer t} (hd : 0 ≤ d.val) : ∃ l, M.map (euclideanDistance arity d) = .ok l ∧
      (d.val = 0 ∨ (f.squareBound : ℚ) / twoPow f.unitBits ≤ (ofInt f d.val).value / scale.value →
        ∀ exact, 0 ≤ exact → exact ≤ (ofInt f d.val).value →
          Covers l ((exact / scale.value) ^ 2 / 2)) := by
  obtain ⟨hfinite, hmap⟩ := of_discreteGaussian_eq_ok h
  obtain ⟨q, hq, hq0, rfl⟩ := eq_positive_of_zero_lt hscale
  have hpos := value_pos hq hq0
  have hrounded : ∃ l, M.map (euclideanDistance arity d) = .ok l ∧
      (d.val = 0 ∨ (f.squareBound : ℚ) / twoPow f.unitBits ≤
          (ofInt f d.val).value / (signed false q hq).value →
        Covers l (((ofInt f d.val).value / (signed false q hq).value) ^ 2 / 2)) := by
    rw [hmap d hd]
    rcases hd.eq_or_lt with h0 | hd0
    · refine ⟨_, discreteLoss_zero _ h0.symm, fun _ _ => ?_⟩
      rw [← h0, ofInt_zero, value_zero]
      norm_num
    · refine ⟨_, discreteLoss_of_pos hscale _ hd0, fun hratio => ?_⟩
      obtain ⟨p, hp, hone, hcast⟩ := exists_ofInt_eq (f := f) hd0
      rw [hcast] at hratio ⊢
      exact gaussianLoss_covers hp hq (f.remainderBound_le.trans hone) hq0
        (isFinite_positive.mp hfinite) (hratio.resolve_left hd0.ne')
  obtain ⟨l, hl, hcover⟩ := hrounded
  refine ⟨l, hl, fun hratio exact hexact0 hexact => (hcover hratio).mono ?_⟩
  gcongr

/-! ### Losses below the exact one -/

/-- No loss that discrete Laplace noise states is below the exact one. -/
def LaplaceCovers (t : IntType) (f : Format) : Prop :=
  ∀ (caps : Capabilities) (arity : Arity) (scale : Binary f) (M : _), zero.lt scale = true →
    Measurement.discreteLaplace caps arity t f scale = .ok M → ∀ d : Integer t, 0 ≤ d.val →
      ∀ l, M.map (summedDistance arity d) = .ok l → Covers l (d.val / scale.value)

def GaussianCovers (t : IntType) (f : Format) : Prop :=
  ∀ (caps : Capabilities) (arity : Arity) (scale : Binary f) (M : _), zero.lt scale = true →
    Measurement.discreteGaussian caps arity t f scale = .ok M → ∀ d : Integer t, 0 ≤ d.val →
      ∀ l, M.map (euclideanDistance arity d) = .ok l → Covers l ((d.val / scale.value) ^ 2 / 2)

theorem exists_laplaceLoss_lt {d : Integer t}
    (hd : d.val = (twoPow (f.fractionBits + 1) + 1 : Nat)) :
    ∃ M l, Measurement.discreteLaplace .all .scalar t f one = .ok M ∧
      M.map (summedDistance .scalar d) = .ok l ∧ l.isFinite = true ∧
      l.value < d.val / (one : Binary f).value := by
  have hfinite : (one : Binary f).isFinite = true := by cases f <;> decide
  have hscale : zero.lt (one : Binary f) = true := by cases f <;> decide
  have hle : zero.le (one : Binary f) = true := by cases f <;> decide
  have hd0 : 0 < d.val := by omega
  obtain ⟨M, hM⟩ := exists_discreteLaplace t .scalar hfinite hle
  obtain ⟨p, hp, hpf, hcast, hvalue⟩ := ofInt_first_inexact f
  have hmap := (of_discreteLaplace_eq_ok hM).2 d hd0.le
  rw [discreteLoss_of_pos hscale _ hd0, hd, hcast, Measurement.laplaceLoss,
    divUp_one hp hpf] at hmap
  refine ⟨M, _, hM, hmap, isFinite_positive.mpr hpf, ?_⟩
  rw [value_one, div_one, hvalue, hd, Int.cast_natCast, Nat.cast_lt]
  exact Nat.lt_succ_self _

theorem exists_gaussianLoss_lt {d : Integer t} (hd : d.val = 1) :
    ∃ M l, Measurement.discreteGaussian .all .scalar t f (NumType.max (.float f)) = .ok M ∧
      M.map (euclideanDistance .scalar d) = .ok l ∧ l.isFinite = true ∧
      l.value < (d.val / Binary.value (f := f) (NumType.max (.float f))) ^ 2 / 2 := by
  have hfinite : (NumType.max (.float f)).isFinite = true := by cases f <;> decide
  have hscale : zero.lt (NumType.max (.float f)) = true := by cases f <;> decide
  have hle : zero.le (NumType.max (.float f)) = true := by cases f <;> decide
  have hd0 : 0 < d.val := by omega
  obtain ⟨M, hM⟩ := exists_discreteGaussian t .scalar hfinite hle
  have hmap := (of_discreteGaussian_eq_ok hM).2 d hd0.le
  rw [discreteLoss_of_pos hscale _ hd0, hd, gaussianLoss_max] at hmap
  refine ⟨M, _, hM, hmap, by cases f <;> decide, ?_⟩
  obtain ⟨q, hq, hq0, heq⟩ := eq_positive_of_zero_lt hscale
  have hpos := value_pos hq hq0
  rw [value_zero, heq, hd]
  positivity

theorem not_laplaceCovers_of_lt (h : (twoPow (f.fractionBits + 1) : Int) < t.max) :
    ¬LaplaceCovers t f := by
  intro hall
  let d : Integer t := ⟨(twoPow (f.fractionBits + 1) + 1 : Nat),
    t.min_le_zero.trans (Int.natCast_nonneg _), by push_cast; omega⟩
  have hscale : zero.lt (one : Binary f) = true := by cases f <;> decide
  obtain ⟨M, l, hM, hl, hfinite, hlt⟩ := exists_laplaceLoss_lt (f := f) (d := d) rfl
  have hcover := hall .all .scalar one M hscale hM d (Int.natCast_nonneg _) l hl hfinite
  exact absurd hcover (not_le.mpr hlt)

theorem not_gaussianCovers (t : IntType) (f : Format) : ¬GaussianCovers t f := by
  intro hall
  have hscale : zero.lt (NumType.max (.float f)) = true := by cases f <;> decide
  obtain ⟨M, l, hM, hl, hfinite, hlt⟩ := exists_gaussianLoss_lt (f := f) (d := @Integer.one t) rfl
  have hcover := hall .all .scalar _ M hscale hM Integer.one Int.one_nonneg l hl hfinite
  exact absurd hcover (not_le.mpr hlt)

theorem laplaceCovers_iff :
    LaplaceCovers t f ↔ t.max ≤ (twoPow (f.fractionBits + 1) : Int) := by
  refine ⟨fun h => not_lt.mp fun hlt => not_laplaceCovers_of_lt hlt h, ?_⟩
  intro hmax caps arity scale M hscale hM d hd l hl
  obtain ⟨l', hl', hcover⟩ := map_laplace_covers hM hscale hd
  rw [hl] at hl'
  cases hl'
  apply hcover
  obtain ⟨n, hn⟩ := Int.eq_ofNat_of_zero_le hd
  have hfits : n ≤ twoPow (f.fractionBits + 1) := by
    have := d.le_max
    omega
  rw [hn, value_ofInt_of_le hfits, Int.cast_natCast]

end Mechanisms

/-- The losses cover the exact ones of every distance up to the one that the format has, those of
    Gaussian noise if the ratio of distance and scale keeps its square's remainder. Over all scales
    and distances this makes the losses of Laplace noise bounds for the types whose numbers have
    positions of their own, and those of Gaussian noise for none. -/
theorem discreteLosses_cover [Elementary] (t : IntType) (f : Format) :
    (∀ (caps : Capabilities) (arity : Arity) (scale : Binary f) (M : _), zero.lt scale = true →
      Measurement.discreteLaplace caps arity t f scale = .ok M → ∀ d : Integer t, 0 ≤ d.val →
        ∃ l, M.map (summedDistance arity d) = .ok l ∧
          ∀ exact ≤ (ofInt f d.val).value, Covers l (exact / scale.value)) ∧
    (∀ (caps : Capabilities) (arity : Arity) (scale : Binary f) (M : _), zero.lt scale = true →
      Measurement.discreteGaussian caps arity t f scale = .ok M → ∀ d : Integer t, 0 ≤ d.val →
        ∃ l, M.map (euclideanDistance arity d) = .ok l ∧
          (d.val = 0 ∨
              (f.squareBound : ℚ) / twoPow f.unitBits ≤ (ofInt f d.val).value / scale.value →
            ∀ exact, 0 ≤ exact → exact ≤ (ofInt f d.val).value →
              Covers l ((exact / scale.value) ^ 2 / 2))) ∧
    (LaplaceCovers t f ↔ t.max ≤ (twoPow (f.fractionBits + 1) : Int)) ∧
    ¬GaussianCovers t f :=
  ⟨fun _ _ _ _ hscale hM _ hd => map_laplace_covers hM hscale hd,
    fun _ _ _ _ hscale hM _ hd => map_gaussian_covers hM hscale hd,
    laplaceCovers_iff, not_gaussianCovers t f⟩

theorem discreteLosses_cover_i64 :
    (∃ M l, @Measurement.discreteLaplace .machine .all .scalar .i64 .binary64 (ofInt _ 3) = .ok M ∧
      M.map (summedDistance .scalar ⟨7, by decide, by decide⟩) = .ok l ∧
      l.isFinite = true ∧ 7 / 3 ≤ l.value) ∧
    ∃ M l, @Measurement.discreteGaussian .machine .all .scalar .i64 .binary64 (ofInt _ 3) = .ok M ∧
      M.map (euclideanDistance .scalar ⟨7, by decide, by decide⟩) = .ok l ∧
      l.isFinite = true ∧ (7 / 3) ^ 2 / 2 ≤ l.value := by
  let _ := Elementary.machine
  have hscale : zero.lt (ofInt .binary64 3) = true := by decide +kernel
  have hfinite : (ofInt .binary64 3).isFinite = true := by decide +kernel
  have hle : zero.le (ofInt .binary64 3) = true := by decide +kernel
  have hseven : (ofInt .binary64 7).value = 7 := value_ofInt_of_le (n := 7) (by decide)
  have hthree : (ofInt .binary64 3).value = 3 := value_ofInt_of_le (n := 3) (by decide)
  have hratio : (Format.squareBound .binary64 : ℚ) / twoPow (Format.unitBits .binary64) ≤ 7 / 3 :=
    ((div_le_one (twoPow_unitBits_pos _)).mpr
      (Nat.cast_le.mpr (Format.squareBound_le _))).trans (by norm_num)
  obtain ⟨hlaplace, hgaussian, -, -⟩ := discreteLosses_cover .i64 .binary64
  obtain ⟨M, hM⟩ := exists_discreteLaplace .i64 .scalar hfinite hle
  obtain ⟨N, hN⟩ := exists_discreteGaussian .i64 .scalar hfinite hle
  let d : Integer .i64 := ⟨7, by decide, by decide⟩
  have hd : 0 < d.val := by decide
  have hl := (of_discreteLaplace_eq_ok hM).2 d hd.le
  have hk := (of_discreteGaussian_eq_ok hN).2 d hd.le
  rw [discreteLoss_of_pos hscale _ hd] at hl hk
  obtain ⟨l, hl', hcover⟩ := hlaplace _ _ _ M hscale hM d hd.le
  obtain ⟨k, hk', hcover'⟩ := hgaussian _ _ _ N hscale hN d hd.le
  obtain rfl := Except.ok.inj (hl.symm.trans hl')
  obtain rfl := Except.ok.inj (hk.symm.trans hk')
  rw [hthree, hseven] at hcover hcover'
  have hlf : (Measurement.laplaceLoss (ofInt .binary64 3) (ofInt .binary64 7)).isFinite = true := by
    decide +kernel
  have hkf : (Measurement.gaussianLoss (ofInt .binary64 3) (ofInt .binary64 7)).isFinite = true := by
    decide +kernel
  exact ⟨⟨M, _, hM, hl, hlf, hcover 7 le_rfl hlf⟩,
    N, _, hN, hk, hkf, hcover' (Or.inr hratio) 7 (by norm_num) le_rfl hkf⟩

/-- Two distances whose loss is below the exact one: the first is rounded down on the way into the
    format, the square of the second's ratio is lost. -/
theorem discreteLosses_lt_i64 :
    (∃ M l, @Measurement.discreteLaplace .machine .all .scalar .i64 .binary64 one = .ok M ∧
      M.map (summedDistance .scalar ⟨9007199254740993, by decide, by decide⟩) = .ok l ∧
      l.isFinite = true ∧ l.value < 9007199254740993 / (one : Binary .binary64).value) ∧
    ∃ M l, @Measurement.discreteGaussian .machine .all .scalar .i64 .binary64
        (NumType.max (.float .binary64)) = .ok M ∧
      M.map (euclideanDistance .scalar .one) = .ok l ∧ l.isFinite = true ∧
      l.value < (1 / Binary.value (f := .binary64) (NumType.max (.float .binary64))) ^ 2 / 2 := by
  let _ := Elementary.machine
  obtain ⟨M, l, hM, hl, hfinite, hlt⟩ := exists_laplaceLoss_lt (f := .binary64)
    (d := (⟨9007199254740993, by decide, by decide⟩ : Integer .i64)) (by decide)
  obtain ⟨N, k, hN, hk, hfinite', hlt'⟩ := exists_gaussianLoss_lt (f := .binary64)
    (d := (Integer.one : Integer .i64)) rfl
  refine ⟨⟨M, l, hM, hl, hfinite, ?_⟩, N, k, hN, hk, hfinite', ?_⟩
  · simpa using hlt
  · simpa [Integer.one] using hlt'

end DifferentialPrivacy.DiscreteLoss
