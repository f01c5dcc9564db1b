import DifferentialPrivacy.Proofs.Accounting.PinnedDelta
import DifferentialPrivacy.Proofs.Accounting.ReportedLoss
import DifferentialPrivacy.Proofs.Number.ElementaryAccuracy

set_option autoImplicit false

/-!
# Amplified losses and the size of the population

The rate of a sample is the least bound on the quotient of the rounded sizes, so it is no larger for a
larger population, whatever steps up were taken for either. Products with a positive rate keep the
order of both factors, infinity included, and `e ^ x - 1` and `ln (1 + x)` keep it if the library's
own functions do. So the amplified loss is never larger for a larger population and never smaller for
a larger loss, with nothing to be allowed for rounding.
-/
namespace DifferentialPrivacy

/-! ### Functions that keep the order -/

namespace Binary

variable {f : Format} {x y x' y' : Binary f} {q q' : Nat}

/-- `g` keeps the order of the numbers that are not negative, and zero is zero after it. -/
structure KeepsOrder (g : Binary f → Binary f) : Prop where
  isZero (x : Binary f) : x.isZero = true → (g x).isZero = true
  le (x y : Binary f) : zero.le x = true → x.le y = true → (g x).le (g y) = true

theorem at_zero_of_isZero (h : x.isZero = true) : x.At 0 := by
  cases x with
  | nan => cases h
  | signed negative p hp =>
    obtain rfl : p = 0 := of_decide_eq_true h
    exact zero_at_of_sign f negative

theorem KeepsOrder.ascending {g : Binary f → Binary f} (hg : KeepsOrder g) (h : Ascending x y) :
    Ascending (g x) (g y) := by
  obtain ⟨hx, hle⟩ := ascending_iff.mp h
  have hzero : zero.le (g zero) = true :=
    ((zero_at f).le_iff (at_zero_of_isZero (hg.isZero zero rfl))).mpr le_rfl
  have hgx := (ascending_iff.mpr ⟨hzero, hg.le zero x (zero_le_zero f) hx⟩).zero_le_right
  exact ascending_iff.mpr ⟨hgx, hg.le x y hx hle⟩

theorem Ascending.nextUp (h : Ascending x y) : Ascending x.nextUp y.nextUp := by
  obtain ⟨p, q, hp, hq, hle⟩ := h
  rcases hq.le_infinity.eq_or_lt with rfl | hfinite
  · obtain ⟨u, hu⟩ := exists_at_of_zero_le (zero_le_nextUp (((zero_at f).le_iff hp).mpr p.zero_le))
    obtain rfl := hq.eq_infinity
    rw [nextUp_infinity]
    exact ⟨u, _, hu, infinity_at f, hu.le_infinity⟩
  · exact ⟨p + 1, q + 1, hp.nextUp_at (hle.trans_lt hfinite), hq.nextUp_at hfinite, by omega⟩

/-- The step up that is left out at zero. A number above zero is stepped up from zero at least. -/
theorem KeepsOrder.stepUp {g : Binary f → Binary f} (hg : KeepsOrder g) (h : Ascending x y) :
    Ascending (if x.isZero then x else (g x).nextUp) (if y.isZero then y else (g y).nextUp) := by
  have hnext := (hg.ascending h).nextUp
  obtain ⟨p, q, hp, hq, hle⟩ := id h
  by_cases hx : x.isZero = true
  · rw [if_pos hx]
    by_cases hy : y.isZero = true
    · rwa [if_pos hy]
    · rw [if_neg hy]
      obtain ⟨u, hu⟩ := exists_at_of_zero_le hnext.zero_le_right
      exact ⟨0, u, at_zero_of_isZero hx, hu, u.zero_le⟩
  · have hy : y.isZero ≠ true := by
      rw [hp.isZero_iff] at hx
      rw [ne_eq, hq.isZero_iff]
      omega
    rwa [if_neg hx, if_neg hy]

/-- The second factor is positive, so it has a product with infinity. -/
theorem Ascending.mulUp (h : Ascending x x') (hy : y.At q) (hy' : y'.At q') (hq : 0 < q)
    (hle : q ≤ q') (hq' : q' < f.infinity) : Ascending (x.mulUp y) (x'.mulUp y') := by
  obtain ⟨p, p', hp, hp', hpp'⟩ := h
  rcases hp'.le_infinity.eq_or_lt with rfl | hfinite
  · obtain rfl := hp'.eq_infinity
    rw [infinity_mulUp hy' (hq.trans_le hle)]
    have hproduct := zero_le_mulUp (((zero_at f).le_iff hp).mpr p.zero_le) hy (hle.trans_lt hq')
      (Or.inl hq)
    obtain ⟨u, hu⟩ := exists_at_of_zero_le hproduct
    exact ⟨u, _, hu, infinity_at f, hu.le_infinity⟩
  · refine ⟨_, _, hp.mulUp_at hy (hpp'.trans_lt hfinite) (hle.trans_lt hq'),
      hp'.mulUp_at hy' hfinite hq', Format.upward_mono (twoPow_pos _) ?_⟩
    exact Nat.mul_le_mul (f.units_strictMono.monotone hpp') (f.units_strictMono.monotone hle)

end Binary

/-- The functions that amplification uses keep the order of the numbers that are not negative. -/
structure Elementary.KeepsOrder [Elementary] : Prop where
  expMinusOne (f : Format) : Binary.KeepsOrder (Elementary.expMinusOne : Binary f → Binary f)
  lnOnePlus (f : Format) : Binary.KeepsOrder (Elementary.lnOnePlus : Binary f → Binary f)

/-! ### Rates -/

namespace SamplingRate
open Binary

variable {population population' sample : Nat}

/-- A bound on the rate in the smaller population bounds the one in the larger. -/
theorem samplingRate_antitone (hpos : 0 < population) (hle : sample ≤ population)
    (hgrow : population ≤ population') (hmax : (population' : Int) ≤ IntType.usize.max) (f : Format) :
    (samplingRate f population' sample).le (samplingRate f population sample) = true := by
  have hbound := samplingRate_atLeast hpos hle (by omega) f
  refine samplingRate_le_of_atLeast (by omega) (hle.trans hgrow) hmax (hbound.mono ?_)
  exact div_le_div_of_nonneg_left (value_nonneg_of_zero_le (zero_le_ofInt f sample))
    (value_pos_of_zero_lt (zero_lt_ofInt f hpos)) (value_ofInt_mono hgrow)

theorem exists_samplingRate_le (hsample : 0 < sample) (hle : sample ≤ population)
    (hgrow : population ≤ population') (hmax : (population' : Int) ≤ IntType.usize.max) (f : Format) :
    ∃ r' r, (samplingRate f population' sample).At r' ∧ (samplingRate f population sample).At r ∧
      0 < r' ∧ r' ≤ r ∧ r < f.infinity := by
  have hpos := hsample.trans_le hle
  obtain ⟨r, hr, hrate, -⟩ := exists_samplingRate_at hpos hle (by omega) f
  obtain ⟨r', -, hrate', hr'⟩ := exists_samplingRate_at (hpos.trans_le hgrow) (hle.trans hgrow) hmax f
  have hanti := samplingRate_antitone hpos hle hgrow hmax f
  exact ⟨r', r, hrate', hrate, hr'.mpr hsample, (hrate'.le_iff hrate).mp hanti, hr⟩

end SamplingRate

/-! ### Losses -/

theorem Measure.ascending_of_lossLe {μ : Measure} {l l' : μ.Loss} (h : μ.NonNegative l)
    (hle : μ.LossLe l l') : μ.Ascending l l' := by
  cases μ with
  | maxDivergence f | zeroConcentratedDivergence f => exact Binary.ascending_iff.mpr ⟨h, hle⟩
  | fixedSmoothedMaxDivergence f =>
    exact ⟨Binary.ascending_iff.mpr ⟨h.1, hle.1⟩, Binary.ascending_iff.mpr ⟨h.2, hle.2⟩⟩
  | smoothedMaxDivergence f =>
    intro δ ε' hε'
    obtain ⟨ε, hε, hεε'⟩ := hle δ ε' hε'
    exact ⟨ε, hε, Binary.ascending_iff.mpr ⟨h δ ε hε, hεε'⟩⟩

section Amplification

variable [Elementary] (hlib : Elementary.KeepsOrder)
include hlib

theorem amplifyEpsilon_ascending {f : Format} {ε ε' rate rate' : Binary f} {r r' : Nat}
    (h : Binary.Ascending ε ε') (hrate : rate.At r) (hrate' : rate'.At r') (hr : 0 < r) (hle : r ≤ r')
    (hr' : r' < f.infinity) :
    Binary.Ascending (amplifyEpsilon ε rate) (amplifyEpsilon ε' rate') := by
  have hsurprise : Binary.Ascending ε.expMinusOneUp ε'.expMinusOneUp :=
    (hlib.expMinusOne f).stepUp h
  exact (hlib.lnOnePlus f).stepUp (hsurprise.mulUp hrate hrate' hr hle hr')

theorem Measure.amplify_ascending {μ : Measure} {amp : Amplifiable μ}
    (hamp : μ.amplifiable? = some amp) {population population' sample : Nat} (hsample : 0 < sample)
    (hle : sample ≤ population) (hgrow : population ≤ population')
    (hmax : (population' : Int) ≤ IntType.usize.max) {l l' : μ.Loss} (h : μ.Ascending l l') :
    μ.Ascending (Amplifiable.amplify l population' sample)
      (Amplifiable.amplify l' population sample) := by
  obtain ⟨r', r, hrate', hrate, hr', hrr, hr⟩ :=
    SamplingRate.exists_samplingRate_le hsample hle hgrow hmax μ.format
  cases μ with
  | maxDivergence f =>
    obtain rfl := Option.some.inj hamp
    exact amplifyEpsilon_ascending hlib h hrate' hrate hr' hrr hr
  | fixedSmoothedMaxDivergence f =>
    obtain rfl := Option.some.inj hamp
    exact ⟨amplifyEpsilon_ascending hlib h.1 hrate' hrate hr' hrr hr,
      h.2.mulUp hrate' hrate hr' hrr hr⟩
  | smoothedMaxDivergence f | zeroConcentratedDivergence f => cases hamp

theorem Measurement.Monotone.amplify {m : Metric} {μ : Measure} {amp : Amplifiable μ}
    (hamp : μ.amplifiable? = some amp) {caps : Capabilities} {P M : Measurement m μ}
    {population : Nat} (hmax : (population : Int) ≤ IntType.usize.max)
    (hsize : P.inputDomain.size? ≠ some 0) (hP : P.Monotone)
    (h : P.amplify caps population = .ok M) : M.Monotone := by
  obtain ⟨sample, hsample, -, hle, rfl⟩ := Measurement.of_amplify_eq_ok h
  have hpos : 0 < sample := Nat.pos_of_ne_zero fun h0 => hsize (h0 ▸ hsample)
  exact hP.mapLoss (nonDecreasing_ok fun _ _ =>
    Measure.amplify_ascending hlib hamp hpos hle le_rfl hmax)

end Amplification

/-! ### The exact functions -/

namespace Binary

variable {f : Format} {v w : ℝ}

theorem ofReal_at (hv : 0 ≤ v) :
    (ofReal f v).At (min (f.floorPosition ⌊v * twoPow f.unitBits⌋₊) f.infinity) := by
  unfold ofReal
  simp only [decide_eq_false (not_lt.mpr hv), abs_of_nonneg hv]
  exact positive_at _

theorem ofReal_ascending (hv : 0 ≤ v) (h : v ≤ w) : Ascending (ofReal f v) (ofReal f w) := by
  refine ⟨_, _, ofReal_at hv, ofReal_at (hv.trans h), min_le_min_right _ (f.floorPosition_mono ?_)⟩
  exact Nat.floor_le_floor (mul_le_mul_of_nonneg_right h (real_twoPow_unitBits_pos f).le)

theorem isZero_ofReal_zero (f : Format) : (ofReal f 0).isZero = true := by
  refine (ofReal_at le_rfl).isZero_iff.mpr ?_
  rw [zero_mul, Nat.floor_zero]
  cases f <;> rfl

theorem extend_infinity (g : ℝ → ℝ) (low high : Binary f) : extend g low high infinity = high :=
  if_pos rfl

/-- A function of real numbers that keeps the order and zero does so cut off to the format. -/
theorem keepsOrder_extend {g : ℝ → ℝ} {low : Binary f} (hzero : g 0 = 0)
    (hmono : ∀ v w, 0 ≤ v → v ≤ w → g v ≤ g w) : KeepsOrder (extend g low infinity) := by
  constructor
  · intro x hx
    have hat := at_zero_of_isZero hx
    rw [extend_of_finite _ _ _ (hat.isFinite_iff.mpr f.zero_lt_infinity), hat.real_value_eq,
      f.units_zero, Nat.cast_zero, zero_div, hzero]
    exact isZero_ofReal_zero f
  · intro x y hx hle
    obtain ⟨p, q, hp, hq, hpq⟩ := ascending_iff.mpr ⟨hx, hle⟩
    have hnonneg : 0 ≤ g x.value := hzero ▸ hmono 0 _ le_rfl hp.real_value_nonneg
    rcases hq.le_infinity.eq_or_lt with rfl | hqf
    · obtain rfl := hq.eq_infinity
      rw [extend_infinity]
      rcases hp.le_infinity.eq_or_lt with rfl | hpf
      · obtain rfl := hp.eq_infinity
        rw [extend_infinity, (infinity_at f).le_iff (infinity_at f)]
      · have hat := ofReal_at (f := f) hnonneg
        rw [extend_of_finite _ _ _ (hp.isFinite_iff.mpr hpf), hat.le_iff (infinity_at f)]
        exact hat.le_infinity
    · rw [extend_of_finite _ _ _ (hp.isFinite_iff.mpr (hpq.trans_lt hqf)),
        extend_of_finite _ _ _ (hq.isFinite_iff.mpr hqf)]
      have hvalues := hmono _ _ hp.real_value_nonneg (hp.real_value_mono hq hpq)
      exact (ascending_iff.mp (ofReal_ascending hnonneg hvalues)).2

theorem KeepsOrder.congr {g g' : Binary f → Binary f} (hg : KeepsOrder g)
    (h : ∀ x, zero.le x = true → g' x = g x) : KeepsOrder g' := by
  constructor
  · intro x hx
    rw [h x (((zero_at f).le_iff (at_zero_of_isZero hx)).mpr le_rfl)]
    exact hg.isZero x hx
  · intro x y hx hle
    rw [h x hx, h y (ascending_iff.mpr ⟨hx, hle⟩).zero_le_right]
    exact hg.le x y hx hle

end Binary

theorem Elementary.exact_keepsOrder : @Elementary.KeepsOrder .exact := by
  let _ := Elementary.exact
  constructor
  · intro f
    refine Binary.keepsOrder_extend (by rw [Real.exp_zero, sub_self]) fun v w _ h => ?_
    exact sub_le_sub_right (Real.exp_le_exp.mpr h) 1
  · intro f
    have hextend : Binary.KeepsOrder
        (Binary.extend (f := f) (fun v => Real.log (1 + v)) .nan .infinity) := by
      refine Binary.keepsOrder_extend (by rw [add_zero, Real.log_one]) fun v w hv h => ?_
      exact Real.log_le_log (by linarith) (by linarith)
    refine hextend.congr fun x hx => ?_
    obtain ⟨p, hp⟩ := Binary.exists_at_of_zero_le hx
    have hone : (-Binary.one : Binary f).ordinal? = some (-(f.one : Int)) := rfl
    have hpos : 0 < f.one := by cases f <;> decide
    change (if _ then _ else if _ then _ else _) = _
    rw [if_neg, if_neg]
    · rw [Binary.eq_iff_of_ordinal hp.ordinal?_eq hone]
      omega
    · rw [Binary.lt_iff_of_ordinal hp.ordinal?_eq hone]
      omega

/-- A larger population never has the larger amplified loss, and a larger loss never has the smaller
    one, in any component; nothing is allowed for rounding. What holds of losses holds of measurements:
    of two amplifications of one measurement, that by the larger population reports no more, and a map
    that never decreases stays one. -/
theorem amplification_ordered [Elementary] (hlib : Elementary.KeepsOrder) {μ : Measure}
    {amp : Amplifiable μ} (hamp : μ.amplifiable? = some amp) :
    (∀ {population sample : Nat}, 0 < sample → sample ≤ population → ∀ {l : μ.Loss}, μ.NonNegative l →
      (∀ population', population ≤ population' → (population' : Int) ≤ IntType.usize.max →
        μ.LossLe (Amplifiable.amplify l population' sample)
          (Amplifiable.amplify l population sample)) ∧
      ∀ l', μ.LossLe l l' → (population : Int) ≤ IntType.usize.max →
        μ.LossLe (Amplifiable.amplify l population sample)
          (Amplifiable.amplify l' population sample)) ∧
    ∀ {m : Metric} {caps : Capabilities} {P M : Measurement m μ} {population : Nat},
      P.amplify caps population = .ok M → P.inputDomain.size? ≠ some 0 →
      (population : Int) ≤ IntType.usize.max →
        (∀ {population' M'}, P.amplify caps population' = .ok M' → population ≤ population' →
          (population' : Int) ≤ IntType.usize.max → ∀ {d l}, P.map d = .ok l → μ.NonNegative l →
            ∃ a a', M.map d = .ok a ∧ M'.map d = .ok a' ∧ μ.LossLe a' a) ∧
        (P.Monotone → M.Monotone) := by
  refine ⟨?_, ?_⟩
  · intro population sample hsample hle l hl
    refine ⟨fun population' hgrow hmax => ?_, fun l' hll' hmax => ?_⟩
    · have hself := Measure.ascending_self_iff.mpr hl
      exact (Measure.amplify_ascending hlib hamp hsample hle hgrow hmax hself).lossLe
    · have hasc := Measure.ascending_of_lossLe hl hll'
      exact (Measure.amplify_ascending hlib hamp hsample hle le_rfl hmax hasc).lossLe
  · intro m caps P M population hM hsize hmax
    refine ⟨?_, fun hP => hP.amplify hlib hamp hmax hsize hM⟩
    intro population' M' hM' hgrow hmax' d l hP hl
    obtain ⟨sample, hsample, -, hle, rfl⟩ := Measurement.of_amplify_eq_ok hM
    obtain ⟨sample', hsample', -, -, rfl⟩ := Measurement.of_amplify_eq_ok hM'
    obtain rfl := Option.some.inj (hsample.symm.trans hsample')
    have hpos : 0 < sample := Nat.pos_of_ne_zero fun h0 => hsize (h0 ▸ hsample)
    have hself := Measure.ascending_self_iff.mpr hl
    refine ⟨_, _, ?_, ?_, (Measure.amplify_ascending hlib hamp hpos hle hgrow hmax' hself).lossLe⟩
    · rw [Measurement.map_mapLoss, hP]
      rfl
    · rw [Measurement.map_mapLoss, hP]
      rfl

/-- Three records of five, or of ten. -/
theorem amplification_ordered_exact : @Elementary.KeepsOrder .exact ∧
    ∃ P M M' : Measurement .symmetric (.fixedSmoothedMaxDivergence .binary64),
      @Measurement.amplify _ _ (@instAmplifiableFixedSmoothedMaxDivergence .exact _) .all P 5 =
        .ok M ∧
      @Measurement.amplify _ _ (@instAmplifiableFixedSmoothedMaxDivergence .exact _) .all P 10 =
        .ok M' ∧
      M.Monotone ∧ P.map (.clamp _ 1) = .ok (.one, .one) ∧
      (∃ l l', M.map (.clamp _ 1) = .ok l ∧ M'.map (.clamp _ 1) = .ok l' ∧
        (Measure.fixedSmoothedMaxDivergence .binary64).LossLe l' l) ∧
      (Measure.fixedSmoothedMaxDivergence .binary64).LossLe
        (@Amplifiable.amplify _ (@instAmplifiableFixedSmoothedMaxDivergence .exact _)
          (.one, .one) 5 3)
        (@Amplifiable.amplify _ (@instAmplifiableFixedSmoothedMaxDivergence .exact _)
          (.infinity, .one) 5 3) := by
  let _ := Elementary.exact
  let P : Measurement .symmetric (.fixedSmoothedMaxDivergence .binary64) :=
    { inputDomain := .sized (.vectorOf .bool) 3
      outputDomain := .all .bool
      function := fun _ x => .ok x
      privacyMap := fun _ => .ok (.one, .one) }
  have hone : (Measure.fixedSmoothedMaxDivergence .binary64).NonNegative (.one, .one) :=
    ⟨by decide, by decide⟩
  have hmore : (Measure.fixedSmoothedMaxDivergence .binary64).LossLe (.one, .one)
      (.infinity, .one) := ⟨by decide, by decide⟩
  have hP : P.Monotone := nonDecreasing_ok fun _ _ _ => Measure.ascending_self_iff.mpr hone
  have hmap : P.map (.clamp _ 1) = .ok (.one, .one) := rfl
  have hnonempty : P.inputDomain.size? ≠ some 0 := by decide
  obtain ⟨M, hM⟩ : ∃ M, P.amplify .all 5 = .ok M := ⟨_, rfl⟩
  obtain ⟨M', hM'⟩ : ∃ M', P.amplify .all 10 = .ok M' := ⟨_, rfl⟩
  obtain ⟨hlosses, hmeasurements⟩ := amplification_ordered Elementary.exact_keepsOrder
    (μ := .fixedSmoothedMaxDivergence .binary64) rfl
  obtain ⟨hgrow, hmonotone⟩ := hmeasurements hM hnonempty (by decide)
  exact ⟨Elementary.exact_keepsOrder, P, M, M', hM, hM', hmonotone hP, hmap,
    hgrow hM' (by decide) (by decide) hmap hone,
    (hlosses (by decide) (by decide) hone).2 _ hmore (by decide)⟩

end DifferentialPrivacy
