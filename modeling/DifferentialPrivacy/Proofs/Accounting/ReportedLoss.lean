import DifferentialPrivacy.Proofs.Accounting.MappedLoss
import DifferentialPrivacy.Proofs.Accounting.MonotoneLoss
import DifferentialPrivacy.Proofs.Accounting.SamplingRate
import DifferentialPrivacy.Proofs.Number.ElementarySign
import DifferentialPrivacy.Proofs.Release.ResponseLoss

set_option autoImplicit false

/-!
# Reported losses are numbers

The losses of all mechanisms are numbers that are not negative, infinity included, and so is what is
made of them by chaining, composition, conversion and fixing `δ`. Amplification multiplies by a
sampling rate, and the rate of an empty sample is zero. An infinite loss times that rate is not a
number, so here a loss has to be finite or the sample must not be empty.
-/
namespace DifferentialPrivacy

namespace Binary

variable {f : Format} {x y : Binary f} {p q : Nat}

theorem zero_le_max_zero (x : Binary f) : zero.le (x.max zero) = true := by
  unfold max
  split_ifs with hnan _ hlt
  · exact zero_le_zero f
  · contradiction
  · exact zero_le_zero f
  · cases x with
    | nan => exact absurd rfl hnan
    | signed negative p hp =>
      have hordinal : ¬(if negative = true then -(p : Int) else p) < 0 :=
        fun h => hlt (decide_eq_true h)
      exact decide_eq_true (Int.not_lt.mp hordinal)

section Product

variable (hx : zero.le x = true) (hy : y.At q)
include hx hy

theorem zero_le_mulUp (hq : q < f.infinity) (h : 0 < q ∨ x.isFinite = true) :
    zero.le (x.mulUp y) = true := by
  obtain ⟨p, hp⟩ := exists_at_of_zero_le hx
  rw [hp.isFinite_iff] at h
  rcases hp.le_infinity.eq_or_lt with rfl | hfinite
  · obtain rfl := hp.eq_infinity
    rw [infinity_mulUp hy (h.resolve_right (Nat.lt_irrefl _))]
    exact (infinity_ascending f).zero_le_right
  · exact ((zero_at f).le_iff (hp.mulUp_at hy hfinite hq)).mpr (Nat.zero_le _)

/-- Only infinity times zero is not a number. -/
theorem mulUp_eq_nan (h : ¬(0 < q ∨ x.isFinite = true)) : x.mulUp y = nan := by
  obtain ⟨p, hp⟩ := exists_at_of_zero_le hx
  obtain ⟨hq, hinf⟩ := not_or.mp h
  obtain rfl : q = 0 := by omega
  rw [hp.isFinite_iff] at hinf
  obtain rfl : p = f.infinity := le_antisymm hp.le_infinity (Nat.not_lt.mp hinf)
  obtain rfl := hp.eq_infinity
  obtain ⟨negative, hle, rfl, -⟩ := hy
  have hproduct : infinity * signed negative 0 hle = nan := by
    change mul _ _ = _
    unfold mul
    exact (if_pos (Or.inl rfl)).trans (if_pos (Or.inr rfl))
  unfold mulUp
  dsimp only
  rw [hproduct]
  rfl

theorem zero_le_mulUp_iff (hq : q < f.infinity) :
    zero.le (x.mulUp y) = true ↔ 0 < q ∨ x.isFinite = true := by
  refine ⟨fun h => ?_, zero_le_mulUp hx hy hq⟩
  by_contra hnan
  rw [mulUp_eq_nan hx hy hnan] at h
  cases h

end Product

end Binary

/-! ### Losses by measure -/

namespace Measure

/-- All parts of a loss are numbers that are not negative; of a curve, all its values are. -/
def NonNegative : (μ : Measure) → μ.Loss → Prop
  | maxDivergence _, l | zeroConcentratedDivergence _, l => Binary.zero.le l = true
  | fixedSmoothedMaxDivergence _, l => Binary.zero.le l.1 = true ∧ Binary.zero.le l.2 = true
  | smoothedMaxDivergence _, l => ∀ δ ε, l δ = .ok ε → Binary.zero.le ε = true

/-- What a sampling rate is multiplied with is finite: `e ^ ε - 1`, and `δ` if the loss has one. -/
def Discountable [Elementary] : (μ : Measure) → μ.Loss → Prop
  | maxDivergence _, l => l.expMinusOneUp.isFinite = true
  | fixedSmoothedMaxDivergence _, l => l.1.expMinusOneUp.isFinite = true ∧ l.2.isFinite = true
  | smoothedMaxDivergence _, _ | zeroConcentratedDivergence _, _ => True

theorem ascending_self_iff {μ : Measure} {l : μ.Loss} : μ.Ascending l l ↔ μ.NonNegative l := by
  have hself : ∀ {f : Format} {x : Binary f}, Binary.Ascending x x ↔ Binary.zero.le x = true := by
    intro f x
    refine ⟨Binary.Ascending.zero_le_right, fun h => ?_⟩
    obtain ⟨p, hp⟩ := Binary.exists_at_of_zero_le h
    exact ⟨p, p, hp, hp, le_rfl⟩
  cases μ with
  | maxDivergence f | zeroConcentratedDivergence f => exact hself
  | fixedSmoothedMaxDivergence f => exact and_congr hself hself
  | smoothedMaxDivergence f =>
    refine forall₂_congr fun δ ε => ⟨fun h hε => ?_, fun h hε => ⟨ε, hε, hself.mpr (h hε)⟩⟩
    obtain ⟨ε', -, hεε'⟩ := h hε
    exact hεε'.zero_le_right

end Measure

theorem NumType.Ascending.refl_of_legal {m : Metric} {d : m.Distance} (hd : m.Legal d) :
    m.distanceType.Ascending d d := by
  refine ⟨hd, ?_⟩
  obtain ⟨n, hn, -⟩ := checkDistance_eq_ok_iff.mp hd
  exact (le_iff_of_place hn hn).mpr le_rfl

/-! ### Amplification -/

/-- Only an empty sample has the rate zero. -/
theorem SamplingRate.exists_samplingRate_at {population sample : Nat} (hpos : 0 < population)
    (hle : sample ≤ population) (hmax : (population : Int) ≤ IntType.usize.max) (f : Format) :
    ∃ r < f.infinity, (samplingRate f population sample).At r ∧ (0 < r ↔ 0 < sample) := by
  obtain ⟨r, hr, -⟩ := samplingRate_at hpos hle hmax f
  refine ⟨r, hr.isFinite_iff.mp (samplingRate_isFinite hpos hle hmax f), hr, ?_⟩
  constructor
  · intro hr0
    by_contra hempty
    obtain rfl : sample = 0 := by omega
    obtain ⟨q, hq, hq0, hqf, heq⟩ := exists_ofInt_positive hpos hmax f
    have hzero := Binary.divUp_of_zero (Binary.zero_at f) hq hq0 hqf
    unfold samplingRate at hr
    rw [Nat.cast_zero, Binary.ofInt_zero, heq] at hr
    exact hr0.ne' (hr.unique hzero)
  · intro hsample
    have hratio := ratio_le_samplingRate hpos hle hmax f
    have hn := Binary.value_pos_of_zero_lt (Binary.zero_lt_ofInt f hsample)
    have hN := Binary.value_pos_of_zero_lt (Binary.zero_lt_ofInt f hpos)
    rw [Nat.pos_iff_ne_zero]
    rintro rfl
    rw [hr.value_eq, f.units_zero, Nat.cast_zero, zero_div] at hratio
    exact absurd (div_pos hn hN) (not_lt.mpr hratio)

section Amplification

variable [Elementary] (hlib : Elementary.KeepsSign)
include hlib

theorem zero_le_amplifyEpsilon_iff {f : Format} {ε rate : Binary f} {r : Nat}
    (hε : Binary.zero.le ε = true) (hrate : rate.At r) (hr : r < f.infinity) :
    Binary.zero.le (amplifyEpsilon ε rate) = true ↔ 0 < r ∨ ε.expMinusOneUp.isFinite = true := by
  have hsurprise := Binary.zero_le_expMinusOneUp hlib hε
  unfold amplifyEpsilon
  constructor
  · intro h
    by_contra hnan
    rw [Binary.mulUp_eq_nan hsurprise hrate hnan, Binary.nan_lnOnePlusUp hlib] at h
    cases h
  · exact fun h => Binary.zero_le_lnOnePlusUp hlib (Binary.zero_le_mulUp hsurprise hrate hr h)

theorem Measure.nonNegative_amplify_iff {μ : Measure} {amp : Amplifiable μ}
    (hamp : μ.amplifiable? = some amp) {population sample : Nat} (hpos : 0 < population)
    (hle : sample ≤ population) (hmax : (population : Int) ≤ IntType.usize.max) {l : μ.Loss}
    (hl : μ.NonNegative l) :
    μ.NonNegative (Amplifiable.amplify l population sample) ↔ 0 < sample ∨ μ.Discountable l := by
  cases μ with
  | maxDivergence f =>
    obtain rfl := Option.some.inj hamp
    obtain ⟨r, hr, hrate, hr0⟩ := SamplingRate.exists_samplingRate_at hpos hle hmax f
    exact (zero_le_amplifyEpsilon_iff hlib hl hrate hr).trans (or_congr_left hr0)
  | fixedSmoothedMaxDivergence f =>
    obtain rfl := Option.some.inj hamp
    obtain ⟨r, hr, hrate, hr0⟩ := SamplingRate.exists_samplingRate_at hpos hle hmax f
    rw [← hr0]
    refine (and_congr (zero_le_amplifyEpsilon_iff hlib hl.1 hrate hr)
      (Binary.zero_le_mulUp_iff hl.2 hrate hr)).trans ?_
    exact or_and_left.symm
  | smoothedMaxDivergence f | zeroConcentratedDivergence f => cases hamp

end Amplification

/-! ### Curves -/

/-- No logarithm has to be known for this: of a value that is not a number, zero is taken. -/
theorem nonNegative_approximateEpsilon [Elementary] {f : Format} (ρ : Binary f) :
    (Measure.smoothedMaxDivergence f).NonNegative (approximateEpsilon ρ) := by
  intro δ ε h
  unfold approximateEpsilon at h
  split_ifs at h with hρ hδ hzero hinf
  · obtain rfl := Except.ok.inj h
    exact Binary.zero_le_zero f
  · obtain rfl := Except.ok.inj h
    simpa using hρ
  · obtain rfl := Except.ok.inj h
    exact Binary.zero_le_max_zero _

theorem nonNegative_of_fixDelta {μ : Measure} {fix : DeltaFixable μ}
    (hfix : μ.deltaFixable? = some fix) {δ : Binary μ.format} (hδ : Binary.zero.lt δ = true)
    {l : μ.Loss} (hl : μ.NonNegative l) {pair : Binary μ.format × Binary μ.format}
    (h : DeltaFixable.fixDelta l δ = .ok pair) :
    (Measure.fixedSmoothedMaxDivergence μ.format).NonNegative pair := by
  cases μ with
  | smoothedMaxDivergence f =>
    obtain rfl := Option.some.inj hfix
    obtain ⟨ε, hε, h⟩ := bind_eq_ok_iff.mp h
    obtain rfl := Except.ok.inj h
    exact ⟨hl δ ε hε, Binary.zero_le_of_zero_lt hδ⟩
  | fixedSmoothedMaxDivergence f =>
    obtain rfl := Option.some.inj hfix
    change (if δ.lt l.2 = true then Except.error _ else Except.ok l) = Except.ok pair at h
    split_ifs at h
    obtain rfl := Except.ok.inj h
    exact hl
  | maxDivergence f | zeroConcentratedDivergence f => cases hfix

/-! ### Measurements -/

namespace Measurement

variable {m : Metric} {μ : Measure}

theorem Monotone.nonNegative {M : Measurement m μ} (hM : M.Monotone) {d : m.Distance}
    (hd : m.Legal d) {l : μ.Loss} (hl : M.privacyMap d = .ok l) : μ.NonNegative l := by
  obtain ⟨l', hl', hasc⟩ := hM d d (NumType.Ascending.refl_of_legal hd) l hl
  obtain rfl := Except.ok.inj (hl.symm.trans hl')
  exact Measure.ascending_self_iff.mp hasc

theorem nonNegative_of_discreteMap {f : Format} {loss l : Binary f} {d : Integer .u32}
    (hloss : Binary.zero.le loss = true) (h : discreteMap loss d = .ok l) :
    Binary.zero.le l = true := by
  obtain rfl := Except.ok.inj h
  split_ifs
  · exact Binary.zero_le_zero f
  · exact hloss

theorem nonNegative_compose {add : Composable μ} (hadd : μ.composable? = some add) {ls : List μ.Loss}
    (h : ∀ l ∈ ls, μ.NonNegative l) : μ.NonNegative (Composable.compose ls) := by
  apply Measure.ascending_self_iff.mp
  apply Measure.compose_ascending hadd
  exact List.forall₂_same.mpr fun l hl => Measure.ascending_self_iff.mpr (h l hl)

theorem nonNegative_of_mapM {ι : Type} {parts : List ι} {map : ι → Result μ.Loss} {ls : List μ.Loss}
    (hls : parts.mapM map = .ok ls) (h : ∀ i ∈ parts, ∀ l, map i = .ok l → μ.NonNegative l) :
    ∀ l ∈ ls, μ.NonNegative l := by
  rw [mapM_eq_ok_iff] at hls
  induction hls with
  | nil => exact fun l hl => absurd hl List.not_mem_nil
  | cons hl _ ih =>
    obtain ⟨hi, hparts⟩ := List.forall_mem_cons.mp h
    exact List.forall_mem_cons.mpr ⟨hi _ hl, ih hparts⟩

variable [Elementary]

/-- What the mechanisms give by chaining behind transformations, by composition, by conversion, by
    fixing `δ` and by amplification, as it is asked for its loss at a distance. Where a sample is
    empty, its loss at the distance has to be one that can be discounted. -/
inductive Accounted : {m : Metric} → {μ : Measure} → Measurement m μ → m.Distance → Prop
  | laplace {caps : Capabilities} {arity : Arity} {f : Format} {scale : Binary f}
      {M : Measurement (arity.summed (.float f)) (.maxDivergence f)}
      (h : laplace caps arity f scale = .ok M) (d : _) : Accounted M d
  | gaussian {caps : Capabilities} {arity : Arity} {f : Format} {scale : Binary f}
      {M : Measurement (arity.euclidean (.float f)) (.zeroConcentratedDivergence f)}
      (h : gaussian caps arity f scale = .ok M) (d : _) : Accounted M d
  | discreteLaplace {caps : Capabilities} {arity : Arity} {t : IntType} {f : Format}
      {scale : Binary f} {M : Measurement (arity.summed (.int t)) (.maxDivergence f)}
      (h : discreteLaplace caps arity t f scale = .ok M) (d : _) : Accounted M d
  | discreteGaussian {caps : Capabilities} {arity : Arity} {t : IntType} {f : Format}
      {scale : Binary f} {M : Measurement (arity.euclidean (.int t)) (.zeroConcentratedDivergence f)}
      (h : discreteGaussian caps arity t f scale = .ok M) (d : _) : Accounted M d
  | randomizedResponseBool {caps : Capabilities} {f : Format} {p : Binary f}
      {M : Measurement .discrete (.maxDivergence f)} (h : randomizedResponseBool caps f p = .ok M)
      (d : _) : Accounted M d
  | randomizedResponse {caps : Capabilities} {a : Atom} {categories : Categories} {f : Format}
      {p : Binary f} {M : Measurement .discrete (.maxDivergence f)}
      (hmax : (categories.values.length : Int) ≤ IntType.usize.max)
      (h : randomizedResponse caps a categories f p = .ok M) (d : _) : Accounted M d
  | chain {caps : Capabilities} {m m' : Metric} {μ : Measure} {outer : Measurement m' μ}
      {inner : Transformation m m'} {M : Measurement m μ} {d : m.Distance} (hi : inner.BuiltIn)
      (ho : ∀ d', inner.map d = .ok d' → Accounted outer d') (h : chain caps outer inner = .ok M) :
      Accounted M d
  | compose {caps : Capabilities} {m : Metric} {μ : Measure} {add : Composable μ}
      {parts : List (Measurement m μ)} {M : Measurement m μ} {d : m.Distance}
      (hadd : μ.composable? = some add) (hparts : ∀ P ∈ parts, Accounted P d)
      (h : compose caps parts = .ok M) : Accounted M d
  | pureToFixed {caps : Capabilities} {m : Metric} {f : Format} {P : Measurement m (.maxDivergence f)}
      {M : Measurement m (.fixedSmoothedMaxDivergence f)} {d : m.Distance} (hP : Accounted P d)
      (h : pureToFixed caps P = .ok M) : Accounted M d
  | pureToConcentrated {caps : Capabilities} {m : Metric} {f : Format}
      {P : Measurement m (.maxDivergence f)} {M : Measurement m (.zeroConcentratedDivergence f)}
      {d : m.Distance} (hP : Accounted P d) (h : pureToConcentrated caps P = .ok M) : Accounted M d
  | concentratedToCurve {caps : Capabilities} {m : Metric} {f : Format}
      {P : Measurement m (.zeroConcentratedDivergence f)}
      {M : Measurement m (.smoothedMaxDivergence f)} {d : m.Distance} (hP : Accounted P d)
      (h : concentratedToCurve caps P = .ok M) : Accounted M d
  | fixDelta {caps : Capabilities} {m : Metric} {μ : Measure} {fix : DeltaFixable μ}
      {P : Measurement m μ} {δ : Binary μ.format}
      {M : Measurement m (.fixedSmoothedMaxDivergence μ.format)} {d : m.Distance}
      (hfix : μ.deltaFixable? = some fix) (hP : Accounted P d) (h : fixDelta caps P δ = .ok M) :
      Accounted M d
  | amplify {caps : Capabilities} {m : Metric} {μ : Measure} {amp : Amplifiable μ}
      {P M : Measurement m μ} {population : Nat} {d : m.Distance}
      (hamp : μ.amplifiable? = some amp) (hP : Accounted P d)
      (hmax : (population : Int) ≤ IntType.usize.max) (h : amplify caps P population = .ok M)
      (hloss : P.inputDomain.size? = some 0 → ∀ l, P.map d = .ok l → μ.Discountable l) : Accounted M d
  | eraseOutput {m : Metric} {μ : Measure} {P : Measurement m μ} {d : m.Distance}
      (hP : Accounted P d) : Accounted P.eraseOutput d

theorem Accounted.nonNegative (hlib : Elementary.KeepsSign) {M : Measurement m μ} {d : m.Distance}
    (hM : M.Accounted d) (hd : m.Legal d) {l : μ.Loss} (hl : M.privacyMap d = .ok l) :
    μ.NonNegative l := by
  induction hM with
  | laplace h => exact (laplace_monotone h).nonNegative hd hl
  | gaussian h => exact (gaussian_monotone h).nonNegative hd hl
  | discreteLaplace h => exact (discreteLaplace_monotone h).nonNegative hd hl
  | discreteGaussian h => exact (discreteGaussian_monotone h).nonNegative hd hl
  | randomizedResponseBool h =>
    obtain ⟨-, hp, rfl⟩ := randomizedResponseBool_eq_ok_iff.mp h
    exact nonNegative_of_discreteMap (Binary.zero_le_lnUp hlib (one_le_oddsUp hp)) hl
  | randomizedResponse hmax h =>
    obtain ⟨-, htwo, hp, rfl⟩ := randomizedResponse_eq_ok_iff.mp h
    have hodds := one_le_oddsUp_mulUp htwo hmax hp
    exact nonNegative_of_discreteMap (Binary.zero_le_lnUp hlib hodds) hl
  | chain hi ho h ih =>
    obtain ⟨-, -, rfl⟩ := chain_eq_ok_iff.mp h
    obtain ⟨d', hd', hl⟩ := bind_eq_ok_iff.mp hl
    obtain ⟨e, he, hlegal⟩ := hi.monotone _ _ (NumType.Ascending.refl_of_legal hd) d' hd'
    obtain rfl := Except.ok.inj (hd'.symm.trans he)
    exact ih _ (bind_eq_ok_iff.mpr ⟨(), hd, hd'⟩) hlegal.1 hl
  | compose hadd _ h ih =>
    obtain ⟨-, first, others, rfl, -, rfl⟩ := compose_eq_ok_iff.mp h
    obtain ⟨ls, hls, hl⟩ := bind_eq_ok_iff.mp hl
    obtain rfl := Except.ok.inj hl
    exact nonNegative_compose hadd (nonNegative_of_mapM hls fun P hP l hl => ih P hP hd hl)
  | pureToFixed _ h ih =>
    obtain ⟨-, rfl⟩ := pureToFixed_eq_ok_iff.mp h
    obtain ⟨ε, hε, hl⟩ := bind_eq_ok_iff.mp hl
    obtain rfl := Except.ok.inj hl
    exact ⟨ih hd hε, Binary.zero_le_zero _⟩
  | pureToConcentrated _ h ih =>
    obtain ⟨-, rfl⟩ := pureToConcentrated_eq_ok_iff.mp h
    obtain ⟨ε, hε, hl⟩ := bind_eq_ok_iff.mp hl
    obtain rfl := Except.ok.inj hl
    have hasc := Measure.ascending_self_iff.mpr (ih hd hε)
    exact Measure.ascending_self_iff.mp hasc.squareUp.divUp_two
  | concentratedToCurve _ h =>
    obtain ⟨-, rfl⟩ := concentratedToCurve_eq_ok_iff.mp h
    obtain ⟨ρ, hρ, hl⟩ := bind_eq_ok_iff.mp hl
    obtain rfl := Except.ok.inj hl
    exact nonNegative_approximateEpsilon ρ
  | fixDelta hfix _ h ih =>
    obtain ⟨-, ⟨hδ, -⟩, rfl⟩ := fixDelta_eq_ok_iff.mp h
    obtain ⟨l, hP, hl⟩ := bind_eq_ok_iff.mp hl
    exact nonNegative_of_fixDelta hfix hδ (ih hd hP) hl
  | amplify hamp _ hmax h hloss ih =>
    obtain ⟨sample, hsize, hpos, hle, rfl⟩ := of_amplify_eq_ok h
    obtain ⟨l, hP, hl⟩ := bind_eq_ok_iff.mp hl
    obtain rfl := Except.ok.inj hl
    refine (Measure.nonNegative_amplify_iff hlib hamp hpos hle hmax (ih hd hP)).mpr ?_
    rw [Nat.pos_iff_ne_zero, ← imp_iff_not_or]
    rintro rfl
    exact hloss hsize l ((map_of_legal hd).trans hP)
  | eraseOutput _ ih => exact ih hd hl

end Measurement

/-- Whatever a measurement reports as its loss is made of numbers that are not negative, as long as no
    loss is amplified that its sampling rate cannot discount. The amplified loss is one exactly if the
    sample is not empty or what its rate is multiplied with is finite. -/
theorem reported_loss_nonNegative [Elementary] (hlib : Elementary.KeepsSign) {m : Metric}
    {μ : Measure} :
    (∀ {M : Measurement m μ} {d : m.Distance}, M.Accounted d →
      ∀ l, M.map d = .ok l → μ.NonNegative l) ∧
    ∀ {amp : Amplifiable μ}, μ.amplifiable? = some amp → ∀ {caps : Capabilities}
      {P M : Measurement m μ} {population : Nat}, P.amplify caps population = .ok M →
      (population : Int) ≤ IntType.usize.max → ∀ {d l}, P.map d = .ok l → μ.NonNegative l →
        ∃ l', M.map d = .ok l' ∧
          (μ.NonNegative l' ↔ (P.inputDomain.size? = some 0 → μ.Discountable l)) := by
  constructor
  · intro M d hM l hl
    obtain ⟨_, hd, hl⟩ := bind_eq_ok_iff.mp hl
    exact hM.nonNegative hlib hd hl
  · intro amp hamp caps P M population h hmax d l hP hl
    obtain ⟨sample, hsize, hpos, hle, rfl⟩ := Measurement.of_amplify_eq_ok h
    obtain ⟨_, hd, hP⟩ := bind_eq_ok_iff.mp hP
    refine ⟨_, bind_eq_ok_iff.mpr ⟨(), hd, bind_eq_ok_iff.mpr ⟨l, hP, rfl⟩⟩, ?_⟩
    rw [Measure.nonNegative_amplify_iff hlib hamp hpos hle hmax hl, hsize, Nat.pos_iff_ne_zero,
      ← imp_iff_not_or, Option.some_inj]

/-- A sum over records of zero and one, released as it is: one substitution is enough to tell two
    datasets apart. -/
theorem exists_exact_release [Elementary] (size : Nat) :
    ∃ P : Measurement .symmetric (.maxDivergence .binary64), P.Accounted (.clamp _ 2) ∧
      P.inputDomain.size? = some size ∧ P.map (.clamp _ 2) = .ok .infinity := by
  obtain ⟨S, hS, houtput, hsize, hstable⟩ : ∃ S,
      Transformation.sizedBoundedSum .split .all size .i32 (.clamp _ 0) (.clamp _ 1) = .ok S ∧
      S.outputDomain = .all (.num (.int .i32)) ∧ S.inputDomain.size? = some size ∧
      S.map (.clamp _ 2) = .ok (.clamp _ 1) := ⟨_, rfl, rfl, rfl, rfl⟩
  have hfinite : (Binary.zero : Binary .binary64).isFinite = true := by decide
  obtain ⟨G, hG⟩ := DiscreteLoss.exists_discreteLaplace .i32 .scalar hfinite (by decide)
  obtain ⟨hinput, hloss⟩ : G.inputDomain = .all (.num (.int .i32)) ∧
      G.privacyMap (.clamp _ 1) = .ok .infinity := by
    obtain ⟨-, -, rfl⟩ := Measurement.discreteLaplace_eq_ok_iff.mp hG
    have hone : (Binary.ofInt .binary64 (Integer.clamp .i32 1).val).isZero = false := by
      decide +kernel
    refine ⟨rfl, congrArg Except.ok ?_⟩
    rw [hone]
    rfl
  have hlink : S.outputDomain.eq G.inputDomain = true := by
    rw [houtput, hinput]
    exact Domain.eq_self _
  have hC : Measurement.chain .all G S = .ok (G.after S) :=
    Measurement.chain_eq_ok_iff.mpr ⟨rfl, hlink, rfl⟩
  refine ⟨_, .chain (.sizedBoundedSum hS) (fun d' _ => .discreteLaplace hG d') hC, hsize, ?_⟩
  obtain ⟨_, hlegal, hstable⟩ := bind_eq_ok_iff.mp hstable
  exact bind_eq_ok_iff.mpr ⟨(), hlegal, bind_eq_ok_iff.mpr ⟨_, hstable, hloss⟩⟩

/-- Three records of a population of ten: the infinite loss stays infinite. -/
theorem reported_loss_nonNegative_exact : @Elementary.KeepsSign .series ∧
    ∃ P M : Measurement .symmetric (.maxDivergence .binary64),
      @Measurement.Accounted .series _ _ M (.clamp _ 2) ∧
      @Measurement.amplify _ _ (@instAmplifiableMaxDivergence .series _) .all P 10 = .ok M ∧
      P.map (.clamp _ 2) = .ok .infinity ∧
      ∃ l, M.map (.clamp _ 2) = .ok l ∧ Binary.zero.le l = true := by
  let _ := Elementary.series
  have hlib := Elementary.series_keepsSign
  obtain ⟨P, hP, hsize, hmap⟩ := exists_exact_release 3
  obtain ⟨hall, hamplify⟩ := reported_loss_nonNegative hlib (m := .symmetric)
    (μ := .maxDivergence .binary64)
  obtain ⟨M, hM⟩ : ∃ M, P.amplify .all 10 = .ok M := by
    unfold Measurement.amplify
    rw [hsize]
    exact ⟨_, rfl⟩
  obtain ⟨l, hl, -⟩ := hamplify rfl hM (by decide) hmap (hall hP _ hmap)
  have hsample : P.inputDomain.size? = some 0 → ∀ l, P.map (.clamp _ 2) = .ok l →
      (Measure.maxDivergence .binary64).Discountable l := by
    intro hempty
    rw [hsize] at hempty
    cases hempty
  have haccounted : M.Accounted (.clamp _ 2) := .amplify rfl hP (by decide) hM hsample
  exact ⟨hlib, P, M, haccounted, hM, hmap, l, hl, hall haccounted l hl⟩

/-- The rate of an empty sample is zero, and there is no product of zero and infinity. -/
theorem reported_loss_nan : @Elementary.KeepsSign .series ∧
    ∃ P M : Measurement .symmetric (.maxDivergence .binary64),
      @Measurement.Accounted .series _ _ P (.clamp _ 2) ∧
      @Measurement.amplify _ _ (@instAmplifiableMaxDivergence .series _) .all P 1 = .ok M ∧
      P.map (.clamp _ 2) = .ok .infinity ∧ M.map (.clamp _ 2) = .ok .nan := by
  let _ := Elementary.series
  obtain ⟨P, hP, hsize, hmap⟩ := exists_exact_release 0
  have hM : P.amplify .all 1 = .ok (P.mapLoss fun loss => .ok (Amplifiable.amplify loss 1 0)) := by
    unfold Measurement.amplify
    rw [hsize]
    rfl
  have hnan : amplifyEpsilon Binary.infinity (samplingRate .binary64 1 0) = .nan := by
    decide +kernel
  refine ⟨Elementary.series_keepsSign, P, _, hP, hM, hmap, ?_⟩
  obtain ⟨_, hlegal, hmap⟩ := bind_eq_ok_iff.mp hmap
  refine bind_eq_ok_iff.mpr ⟨(), hlegal, bind_eq_ok_iff.mpr ⟨_, hmap, ?_⟩⟩
  exact congrArg Except.ok hnan

end DifferentialPrivacy
