import DifferentialPrivacy.Proofs.Number.ElementarySign
import DifferentialPrivacy.Proofs.Release.ConcentratedLoss
import DifferentialPrivacy.Release.ThresholdedCounts
import Mathlib.Probability.Distributions.Exponential
import Mathlib.Probability.HasLaw

set_option autoImplicit false

/-!
# The tail of a threshold

The curve of a threshold is one formula, computed in the rounded arithmetic of a format. In exact
arithmetic its tail bounds the chance that a key which only one of two maps has is released: the
noise on a count `c` takes it to the threshold with chance `e ^ (-(threshold - c) / scale) / 2`, this is
at most the share `c / d` of the tail because `1 ≤ c ≤ d`, and the shares of all keys are at most the
whole. The bound is one on the union of the releases, so the noise may depend on itself in any way.
-/
namespace DifferentialPrivacy.ThresholdTail
open MeasureTheory ProbabilityTheory

/-! ### The curve in any arithmetic -/

/-- What the curve of a threshold is computed with. -/
structure Arithmetic (K : Type) where
  zero : K
  one : K
  half : K
  Lt : K → K → Prop
  neg : K → K
  exp : K → K
  sub : K → K → K
  mul : K → K → K
  divDown : K → K → K
  divUp : K → K → K

namespace Arithmetic

variable {K : Type} (A : Arithmetic K) (scale threshold d δ : K)

/-- The least `δ` that the threshold supports. -/
def tail : K :=
  let decay := A.exp (A.neg (A.divDown (A.sub threshold d) scale))
  A.mul (A.mul d A.half) decay

/-- The curve is defined at `δ`. -/
def Supports : Prop :=
  A.Lt A.zero δ ∧ A.Lt δ A.one ∧ ¬A.Lt threshold d ∧ ¬A.Lt δ (A.tail scale threshold d)

/-- The curve is defined at `δ`, and `ε` is its value. -/
def Reports (ε : K) : Prop := A.Supports scale threshold d δ ∧ A.divUp d scale = ε

end Arithmetic

/-- The directed operations of a format. -/
def rounded [Elementary] (f : Format) : Arithmetic (Binary f) where
  zero := .zero
  one := .one
  half := .one / .two
  Lt x y := x.lt y = true
  neg x := -x
  exp := Binary.expUp
  sub := Binary.subDown
  mul := Binary.mulUp
  divDown := Binary.divDown
  divUp := Binary.divUp

/-- The same operations, exact. -/
noncomputable def unrounded : Arithmetic ℝ where
  zero := 0
  one := 1
  half := 1 / (1 + 1)
  Lt := (· < ·)
  neg x := -x
  exp := Real.exp
  sub := (· - ·)
  mul := (· * ·)
  divDown := (· / ·)
  divUp := (· / ·)

theorem releaseTail_eq [Elementary] {f : Format} (scale threshold d : Binary f) :
    Measurement.releaseTail scale threshold d = (rounded f).tail scale threshold d := by
  unfold Measurement.releaseTail Arithmetic.tail rounded
  rfl

theorem releaseCurve_eq_ok_iff [Elementary] {f : Format} {scale threshold d δ ε : Binary f} :
    Measurement.releaseCurve scale threshold d δ = .ok ε ↔
      (rounded f).Reports scale threshold d δ ε := by
  unfold Measurement.releaseCurve
  dsimp only
  split_ifs with hrange hbelow htail
  · refine ⟨fun h => (by cases h), ?_⟩
    rintro ⟨⟨hpos, hone, -⟩, -⟩
    have hinside : (Binary.zero.lt δ && δ.lt .one) = true := Bool.and_eq_true_iff.mpr ⟨hpos, hone⟩
    rw [hinside] at hrange
    cases hrange
  · exact ⟨fun h => (by cases h), fun h => absurd hbelow h.1.2.2.1⟩
  · exact ⟨fun h => (by cases h), fun h => absurd htail h.1.2.2.2⟩
  · have hinside : (Binary.zero.lt δ && δ.lt .one) = true := by simpa using hrange
    obtain ⟨hpos, hone⟩ := Bool.and_eq_true_iff.mp hinside
    exact ⟨fun h => ⟨⟨hpos, hone, hbelow, htail⟩, Except.ok.inj h⟩, fun h => congrArg _ h.2⟩

theorem of_thresholdedCounts_eq_ok [Elementary] {caps : Capabilities} {key : Atom} {f : Format}
    {scale threshold : Binary f} {M : Measurement (.l1 (.float f)) (.smoothedMaxDivergence f)}
    (h : Measurement.thresholdedCounts caps key f scale threshold = .ok M) (d : Binary f) :
    M.privacyMap d = .ok (Measurement.releaseCurve scale threshold d) := by
  obtain ⟨_, -, h⟩ := bind_eq_ok_iff.mp h
  obtain ⟨_, -, h⟩ := bind_eq_ok_iff.mp h
  split at h
  · cases h
  · cases h
    rfl

theorem exists_thresholdedCounts [Elementary] (key : Atom) {f : Format} (scale threshold : Binary f)
    (hscale : Binary.zero.lt scale = true) (hfinite : scale.isFinite = true)
    (hthreshold : threshold.isFinite = true) :
    ∃ M, Measurement.thresholdedCounts .all key f scale threshold = .ok M := by
  unfold Measurement.thresholdedCounts
  rw [Binary.checkPositive_eq_ok_iff.mpr ⟨hfinite, hscale⟩, hthreshold]
  exact ⟨_, rfl⟩

/-! ### Noise -/

/-- Laplace noise as it is drawn: an exponential magnitude and a fair coin for its sign. -/
noncomputable def noiseLaw (scale : ℝ) : MeasureTheory.Measure ℝ :=
  (1 + 1 : ENNReal)⁻¹ • (expMeasure (1 / scale) + (expMeasure (1 / scale)).map Neg.neg)

section Noise

variable {rate scale a : ℝ}

theorem expMeasure_Ici (hrate : 0 < rate) (ha : 0 ≤ a) :
    expMeasure rate (Set.Ici a) = ENNReal.ofReal (Real.exp (-(rate * a))) := by
  have := isProbabilityMeasure_expMeasure hrate
  have hpoint : expMeasure rate {a} = 0 :=
    withDensity_absolutelyContinuous volume _ (measure_singleton a)
  have hbelow : expMeasure rate (Set.Iio a) = ENNReal.ofReal (1 - Real.exp (-(rate * a))) := by
    rw [← Set.Iic_sdiff_right, measure_sdiff_null hpoint, ← ofReal_cdf, cdf_expMeasure_eq hrate,
      if_pos ha]
  have hnonneg : 0 ≤ 1 - Real.exp (-(rate * a)) := by
    rw [sub_nonneg, Real.exp_le_one_iff]
    nlinarith
  rw [← Set.compl_Iio, prob_compl_eq_one_sub measurableSet_Iio, hbelow, ← ENNReal.ofReal_one,
    ← ENNReal.ofReal_sub _ hnonneg, sub_sub_cancel]

theorem expMeasure_Iic_of_nonpos (hrate : 0 < rate) (ha : a ≤ 0) :
    expMeasure rate (Set.Iic a) = 0 := by
  have := isProbabilityMeasure_expMeasure hrate
  rw [← ofReal_cdf, cdf_expMeasure_eq hrate]
  rcases ha.eq_or_lt with rfl | ha
  · simp
  · rw [if_neg (not_le.mpr ha), ENNReal.ofReal_zero]

theorem noiseLaw_Ici (hscale : 0 < scale) (ha : 0 ≤ a) :
    noiseLaw scale (Set.Ici a) = ENNReal.ofReal (1 / 2 * Real.exp (-a / scale)) := by
  have hrate : 0 < 1 / scale := one_div_pos.mpr hscale
  have hflip : Set.preimage Neg.neg (Set.Ici a) = Set.Iic (-a) := by
    ext x
    change a ≤ -x ↔ x ≤ -a
    exact le_neg
  have hexponent : -(1 / scale * a) = -a / scale := by ring
  unfold noiseLaw
  rw [MeasureTheory.Measure.smul_apply, MeasureTheory.Measure.add_apply,
    MeasureTheory.Measure.map_apply measurable_neg measurableSet_Ici, hflip, expMeasure_Ici hrate ha,
    expMeasure_Iic_of_nonpos hrate (neg_nonpos.mpr ha), hexponent, add_zero, smul_eq_mul,
    ENNReal.ofReal_mul (by norm_num), one_add_one_eq_two, one_div, ENNReal.ofReal_inv_of_pos two_pos,
    ENNReal.ofReal_ofNat]

end Noise

theorem isProbabilityMeasure_noiseLaw {scale : ℝ} (hscale : 0 < scale) :
    IsProbabilityMeasure (noiseLaw scale) := by
  have := isProbabilityMeasure_expMeasure (one_div_pos.mpr hscale)
  constructor
  unfold noiseLaw
  rw [MeasureTheory.Measure.smul_apply, MeasureTheory.Measure.add_apply,
    MeasureTheory.Measure.map_apply measurable_neg .univ, Set.preimage_univ, measure_univ, smul_eq_mul,
    one_add_one_eq_two]
  exact ENNReal.inv_mul_cancel two_ne_zero ENNReal.ofNat_ne_top

/-! ### Keys of one side -/

/-- The chance that noise takes a count to the threshold, which it does not reach by itself. -/
noncomputable def reachChance (scale threshold count : ℝ) : ℝ :=
  unrounded.half * Real.exp (-(threshold - count) / scale)

/-- However the noise of the keys that only one side has depends on itself, the chance that one of
    them is released is at most `δ`. -/
def Valid (scale threshold d δ : ℝ) : Prop :=
  ∀ {ι : Type} [Fintype ι] {count : ι → ℝ}, (∀ i, 1 ≤ count i) → ∑ i, count i ≤ d →
    ∀ {Ω : Type} [MeasurableSpace Ω] {law : MeasureTheory.Measure Ω} {noise : ι → Ω → ℝ},
      (∀ i, HasLaw (noise i) (noiseLaw scale) law) →
      law {ω | ∃ i, threshold ≤ count i + noise i ω} ≤ ENNReal.ofReal δ

section Exact

variable {scale threshold d d' δ δ' : ℝ} (hscale : 0 < scale)

theorem reachChance_eq (scale threshold count : ℝ) : reachChance scale threshold count =
    1 / 2 * Real.exp (-(threshold - count) / scale) := by
  unfold reachChance unrounded
  dsimp only
  rw [one_add_one_eq_two]

theorem unrounded_tail (scale threshold d : ℝ) :
    unrounded.tail scale threshold d = d * reachChance scale threshold d := by
  have hexponent : -((threshold - d) / scale) = -(threshold - d) / scale := (neg_div _ _).symm
  unfold Arithmetic.tail reachChance unrounded
  dsimp only
  rw [hexponent, mul_assoc]

theorem unrounded_supports_iff : unrounded.Supports scale threshold d δ ↔
    0 < δ ∧ δ < 1 ∧ d ≤ threshold ∧ unrounded.tail scale threshold d ≤ δ :=
  and_congr_right' (and_congr_right' (and_congr not_lt not_lt))

theorem unrounded_supports_of_le (h : unrounded.Supports scale threshold d δ) (hle : δ ≤ δ')
    (hone : δ' < 1) : unrounded.Supports scale threshold d δ' := by
  obtain ⟨hpos, -, hd, htail⟩ := unrounded_supports_iff.mp h
  exact unrounded_supports_iff.mpr ⟨hpos.trans_le hle, hone, hd, htail.trans hle⟩

theorem reachChance_pos (scale threshold count : ℝ) : 0 < reachChance scale threshold count :=
  reachChance_eq scale threshold count ▸ mul_pos one_half_pos (Real.exp_pos _)

include hscale

theorem reachChance_mono (h : d ≤ d') :
    reachChance scale threshold d ≤ reachChance scale threshold d' := by
  rw [reachChance_eq, reachChance_eq]
  gcongr

theorem noiseLaw_reach {count : ℝ} (h : count ≤ threshold) :
    noiseLaw scale {x | threshold ≤ count + x} =
      ENNReal.ofReal (reachChance scale threshold count) := by
  have hevent : {x | threshold ≤ count + x} = Set.Ici (threshold - count) := by
    ext x
    change threshold ≤ count + x ↔ threshold - count ≤ x
    exact sub_le_iff_le_add'.symm
  rw [hevent, noiseLaw_Ici hscale (sub_nonneg.mpr h), reachChance_eq]

theorem unrounded_tail_mono (hd : 0 ≤ d) (h : d ≤ d') :
    unrounded.tail scale threshold d ≤ unrounded.tail scale threshold d' := by
  rw [unrounded_tail, unrounded_tail]
  exact mul_le_mul h (reachChance_mono hscale h) (reachChance_pos _ _ _).le (hd.trans h)

theorem unrounded_supports_of_distance_le (h : unrounded.Supports scale threshold d' δ) (hd : 0 ≤ d)
    (hle : d ≤ d') : unrounded.Supports scale threshold d δ := by
  obtain ⟨hpos, hone, hd', htail⟩ := unrounded_supports_iff.mp h
  exact unrounded_supports_iff.mpr
    ⟨hpos, hone, hle.trans hd', (unrounded_tail_mono hscale hd hle).trans htail⟩

section Keys

variable {ι : Type} [Fintype ι] {count : ι → ℝ} (hone : ∀ i, 1 ≤ count i) (hsum : ∑ i, count i ≤ d)
include hone hsum

omit hscale in
theorem count_le (i : ι) : count i ≤ d :=
  (Finset.single_le_sum (fun j _ => zero_le_one.trans (hone j)) (Finset.mem_univ i)).trans hsum

/-- A key's chance is at most the share of the tail that its count has in the distance. -/
theorem reachChance_le_share (i : ι) :
    reachChance scale threshold (count i) ≤ count i * reachChance scale threshold d :=
  calc
    _ ≤ reachChance scale threshold d := reachChance_mono hscale (count_le hone hsum i)
    _ ≤ _ := le_mul_of_one_le_left (reachChance_pos _ _ _).le (hone i)

theorem sum_reachChance_le :
    ∑ i, reachChance scale threshold (count i) ≤ unrounded.tail scale threshold d := by
  calc
    _ ≤ ∑ i, count i * reachChance scale threshold d :=
      Finset.sum_le_sum fun i _ => reachChance_le_share hscale hone hsum i
    _ = (∑ i, count i) * reachChance scale threshold d := (Finset.sum_mul ..).symm
    _ ≤ d * reachChance scale threshold d :=
      mul_le_mul_of_nonneg_right hsum (reachChance_pos _ _ _).le
    _ = _ := (unrounded_tail ..).symm

theorem measure_exists_reach_le (h : d ≤ threshold) {Ω : Type} [MeasurableSpace Ω]
    {law : MeasureTheory.Measure Ω} {noise : ι → Ω → ℝ}
    (hnoise : ∀ i, HasLaw (noise i) (noiseLaw scale) law) :
    law {ω | ∃ i, threshold ≤ count i + noise i ω} ≤
      ENNReal.ofReal (∑ i, reachChance scale threshold (count i)) := by
  have hreach : ∀ i, law {ω | threshold ≤ count i + noise i ω} =
      ENNReal.ofReal (reachChance scale threshold (count i)) := by
    intro i
    have hevent : MeasurableSet {x | threshold ≤ count i + x} :=
      measurableSet_le measurable_const (measurable_const.add measurable_id)
    rw [(hnoise i).measure_eq hevent, noiseLaw_reach hscale ((count_le hone hsum i).trans h)]
  rw [Set.ofPred_exists, ENNReal.ofReal_sum_of_nonneg fun i _ => (reachChance_pos _ _ _).le]
  refine (measure_iUnion_fintype_le law _).trans (Finset.sum_le_sum fun i _ => ?_)
  exact (hreach i).le

end Keys

theorem Valid.of_supports (h : unrounded.Supports scale threshold d δ) :
    Valid scale threshold d δ := by
  obtain ⟨-, -, hd, htail⟩ := unrounded_supports_iff.mp h
  intro ι _ count hone hsum Ω _ law noise hnoise
  refine (measure_exists_reach_le hscale hone hsum hd hnoise).trans (ENNReal.ofReal_le_ofReal ?_)
  exact (sum_reachChance_le hscale hone hsum).trans htail

end Exact

/-- The curve of a measurement is the formula in the arithmetic of its format. In exact arithmetic the
    chances of all keys of one side are together at most the tail, so every `δ` that the curve is
    defined at is valid. The curve is then defined at every larger `δ` below one and at every smaller
    distance, where its value is no larger. -/
theorem tail_bounds_release :
    (∀ [Elementary] {caps : Capabilities} {key : Atom} {f : Format} {scale threshold : Binary f}
      {M : Measurement (.l1 (.float f)) (.smoothedMaxDivergence f)},
      Measurement.thresholdedCounts caps key f scale threshold = .ok M →
      ∀ {d : Binary f} {curve}, M.map d = .ok curve → ∀ δ ε : Binary f,
        curve δ = .ok ε ↔ (rounded f).Reports scale threshold d δ ε) ∧
    ∀ {scale : ℝ}, 0 < scale → ∀ (threshold : ℝ) {d : ℝ}, 0 ≤ d →
      unrounded.tail scale threshold d = d * (1 / 2) * Real.exp (-(threshold - d) / scale) ∧
      (d ≤ threshold → ∀ {ι : Type} [Fintype ι] {count : ι → ℝ}, (∀ i, 1 ≤ count i) →
        ∑ i, count i ≤ d →
          (∀ i, noiseLaw scale {x | threshold ≤ count i + x} =
            ENNReal.ofReal (1 / 2 * Real.exp (-(threshold - count i) / scale))) ∧
          ∑ i, 1 / 2 * Real.exp (-(threshold - count i) / scale) ≤ unrounded.tail scale threshold d) ∧
      (∀ δ ε, unrounded.Reports scale threshold d δ ε ↔
        (0 < δ ∧ δ < 1 ∧ d ≤ threshold ∧ unrounded.tail scale threshold d ≤ δ) ∧ d / scale = ε) ∧
      ∀ δ, unrounded.Supports scale threshold d δ →
        Valid scale threshold d δ ∧
        (∀ δ', δ ≤ δ' → δ' < 1 → unrounded.Supports scale threshold d δ') ∧
        ∀ d', 0 ≤ d' → d' ≤ d → unrounded.Supports scale threshold d' δ ∧
          ∀ ε ε', unrounded.Reports scale threshold d δ ε → unrounded.Reports scale threshold d' δ ε' →
            ε' ≤ ε := by
  constructor
  · intro _ caps key f scale threshold M hM d curve hcurve δ ε
    obtain ⟨_, -, hcurve⟩ := bind_eq_ok_iff.mp hcurve
    rw [of_thresholdedCounts_eq_ok hM] at hcurve
    obtain rfl := Except.ok.inj hcurve
    exact releaseCurve_eq_ok_iff
  · intro scale hscale threshold d hd
    simp only [← reachChance_eq]
    refine ⟨?_, fun hbelow ι _ count hone hsum => ⟨fun i => ?_, ?_⟩, fun δ ε => ?_, fun δ hδ => ?_⟩
    · rw [unrounded_tail, mul_assoc, reachChance_eq]
    · exact noiseLaw_reach hscale ((count_le hone hsum i).trans hbelow)
    · exact sum_reachChance_le hscale hone hsum
    · exact and_congr_left' unrounded_supports_iff
    · refine ⟨Valid.of_supports hscale hδ, fun δ' => unrounded_supports_of_le hδ, fun d' hd' hle => ?_⟩
      refine ⟨unrounded_supports_of_distance_le hscale hδ hd' hle, ?_⟩
      rintro ε ε' ⟨-, rfl⟩ ⟨-, rfl⟩
      exact div_le_div_of_nonneg_right hle hscale.le

/-- Two keys with a record each, with independent noise of scale one and a threshold of twenty. -/
theorem tail_bounds_release_pair :
    (∃ (M : Measurement (.l1 (.float .binary64)) (.smoothedMaxDivergence .binary64)) (curve : _),
      @Measurement.thresholdedCounts .series .all .bool .binary64 .one (.ofInt _ 20) = .ok M ∧
      M.map .one = .ok curve ∧ curve (.one / .two) = .ok .one) ∧
    unrounded.Supports 1 20 2 (1 / 10) ∧ unrounded.Supports 1 20 1 (1 / 10) ∧
    unrounded.Supports 1 20 2 (1 / 2) ∧
    ∑ i : Fin 2, 1 / 2 * Real.exp (-(20 - (![1, 1] : Fin 2 → ℝ) i) / 1) ≤ unrounded.tail 1 20 2 ∧
    MeasureTheory.Measure.pi (fun _ : Fin 2 => noiseLaw 1)
      {noise | ∃ i, 20 ≤ (![1, 1] : Fin 2 → ℝ) i + noise i} ≤ ENNReal.ofReal (1 / 10) := by
  obtain ⟨hcurve, hexact⟩ := tail_bounds_release
  obtain ⟨-, hkeys, -, hsupports⟩ := hexact one_pos 20 zero_le_two
  have htail : unrounded.tail 1 20 2 ≤ 1 / 10 := by
    have hexp := Real.add_one_le_exp 18
    have hexponent : -(20 - 2) / 1 = (-18 : ℝ) := by norm_num
    rw [unrounded_tail, reachChance_eq, hexponent, Real.exp_neg, ← mul_assoc,
      mul_one_div_cancel two_ne_zero, one_mul, one_div]
    exact inv_anti₀ (by norm_num) (by linarith)
  have hten : unrounded.Supports 1 20 2 (1 / 10) :=
    unrounded_supports_iff.mpr ⟨by norm_num, by norm_num, by norm_num, htail⟩
  obtain ⟨hvalid, hlarger, hsmaller⟩ := hsupports (1 / 10) hten
  have hcounts : ∀ i, 1 ≤ (![1, 1] : Fin 2 → ℝ) i := by
    intro i
    fin_cases i <;> exact le_rfl
  have hsum : ∑ i, (![1, 1] : Fin 2 → ℝ) i ≤ 2 := by
    rw [Fin.sum_univ_two]
    norm_num
  refine ⟨?_, hten, (hsmaller 1 zero_le_one one_le_two).1, hlarger (1 / 2) (by norm_num) (by norm_num),
    (hkeys (by norm_num) hcounts hsum).2, hvalid hcounts hsum fun i => ?_⟩
  · let _ := Elementary.series
    obtain ⟨M, hM⟩ := exists_thresholdedCounts .bool .one (.ofInt .binary64 20) (by decide)
      (by decide) (by decide +kernel)
    have hmap : M.map .one = .ok (Measurement.releaseCurve .one (.ofInt _ 20) .one) :=
      bind_eq_ok_iff.mpr
        ⟨(), ConcentratedLoss.checkDistance_eq_ok (by decide), of_thresholdedCounts_eq_ok hM _⟩
    have hhalf : Binary.zero.lt ((.one : Binary .binary64) / .two) = true ∧
        ((.one : Binary .binary64) / .two).lt .one = true := by decide +kernel
    have hone : ∀ f : Format, (.one : Binary f).divUp .one = .one :=
      fun f => Binary.divUp_one _ f.one_lt_infinity
    have hguard : ¬(Binary.ofInt .binary64 20).lt .one = true := by decide +kernel
    have hrequired : ¬((.one : Binary .binary64) / .two).lt
        (Measurement.releaseTail .one (.ofInt _ 20) .one) = true := by decide +kernel
    refine ⟨M, _, hM, hmap, (hcurve hM hmap _ _).mpr ⟨⟨hhalf.1, hhalf.2, hguard, ?_⟩, ?_⟩⟩
    · rw [← releaseTail_eq]
      exact hrequired
    · dsimp only [rounded]
      exact hone .binary64
  · have := isProbabilityMeasure_noiseLaw one_pos
    exact (measurePreserving_eval (fun _ : Fin 2 => noiseLaw 1) i).hasLaw

end DifferentialPrivacy.ThresholdTail
