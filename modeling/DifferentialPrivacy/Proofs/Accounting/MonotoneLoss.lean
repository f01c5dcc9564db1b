import DifferentialPrivacy.Number.Machine
import DifferentialPrivacy.Proofs.Accounting.ComposedLoss
import DifferentialPrivacy.Proofs.Accounting.ComposedRelease
import DifferentialPrivacy.Proofs.Accounting.MappedLoss
import DifferentialPrivacy.Proofs.Pipeline.MonotoneMap
import DifferentialPrivacy.Proofs.Release.ConcentratedLoss

set_option autoImplicit false

/-!
# Losses that never decrease with the distance

Every upward operation keeps the order of numbers that are not negative, infinity included. So the
losses of the noise mechanisms grow with the distance, and what is made of them by conversion, by
composition and by chaining with transformations grows as well, whatever the number of steps.
-/
namespace DifferentialPrivacy

namespace Binary

variable {f : Format} {x y x' y' scale : Binary f}

theorem zero_ascending (h : zero.le x = true) : Ascending zero x :=
  ascending_iff.mpr ⟨zero_le_zero f, h⟩

theorem Ascending.zero_le_right (h : Ascending x y) : zero.le y = true := by
  obtain ⟨p, q, hp, hq, hle⟩ := h
  exact ((zero_at f).le_iff hq).mpr (Nat.zero_le q)

theorem infinity_ascending (f : Format) : Ascending (infinity : Binary f) infinity :=
  ⟨_, _, infinity_at f, infinity_at f, le_rfl⟩

/-! ### Sums -/

/-- An upward sum is the least bound on the exact sum, and a bound on a larger sum bounds a smaller
    one. -/
theorem Ascending.addUp (h : Ascending x x') (h' : Ascending y y') :
    Ascending (x.addUp y) (x'.addUp y') := by
  obtain ⟨p, p', hp, hp', hle⟩ := h
  obtain ⟨q, q', hq, hq', hle'⟩ := h'
  by_cases hinf : p' = f.infinity ∨ q' = f.infinity
  · rw [addUp_infinite hp' hq' hinf]
    have hsum := zero_le_addUp (((zero_at f).le_iff hp).mpr (Nat.zero_le p))
      (((zero_at f).le_iff hq).mpr (Nat.zero_le q))
    obtain ⟨u, hu⟩ := exists_at_of_zero_le hsum
    exact ⟨u, _, hu, infinity_at f, hu.le_infinity⟩
  · obtain ⟨hpi, hqi⟩ := not_or.mp hinf
    have hpf := hp'.le_infinity.lt_of_ne hpi
    have hqf := hq'.le_infinity.lt_of_ne hqi
    obtain ⟨u, hu, -, hleast⟩ := addUp_at hp hq (hle.trans_lt hpf) (hle'.trans_lt hqf)
    obtain ⟨u', hu', hbound, -⟩ := addUp_at hp' hq' hpf hqf
    refine ⟨u, u', hu, hu', ?_⟩
    rcases hu'.le_infinity.eq_or_lt with rfl | hfinite
    · exact hu.le_infinity
    · apply hleast
      exact (Nat.add_le_add (f.units_strictMono.monotone hle)
        (f.units_strictMono.monotone hle')).trans (hbound hfinite)

theorem foldl_addUp_ascending {xs ys : List (Binary f)} (hacc : Ascending x y)
    (h : List.Forall₂ Ascending xs ys) : Ascending (xs.foldl addUp x) (ys.foldl addUp y) := by
  induction h generalizing x y with
  | nil => exact hacc
  | cons hhead _ ih => exact ih (hacc.addUp hhead)

theorem sumUp_ascending {xs ys : List (Binary f)} (h : List.Forall₂ Ascending xs ys) :
    Ascending (sumUp xs) (sumUp ys) :=
  foldl_addUp_ascending (zero_ascending (zero_le_zero f)) h

/-! ### Losses of noise -/

theorem laplaceLoss_ascending (hscale : zero.lt scale = true) (hfinite : scale.isFinite = true)
    (h : Ascending x y) :
    Ascending (Measurement.laplaceLoss scale x) (Measurement.laplaceLoss scale y) := by
  obtain ⟨q, hq, hq0, rfl⟩ := eq_positive_of_zero_lt hscale
  exact h.divUp hq hq0 (isFinite_positive.mp hfinite)

theorem gaussianLoss_ascending (hscale : zero.lt scale = true) (hfinite : scale.isFinite = true)
    (h : Ascending x y) :
    Ascending (Measurement.gaussianLoss scale x) (Measurement.gaussianLoss scale y) :=
  (laplaceLoss_ascending hscale hfinite h).squareUp.divUp_two

/-- A scale that passes the check of discrete noise is zero or divides as any positive number does. -/
theorem zero_lt_of_not_isZero (hscale : zero.le scale = true) (h : scale.isZero ≠ true) :
    zero.lt scale = true := by
  obtain ⟨p, hp⟩ := exists_at_of_zero_le hscale
  obtain ⟨hle, rfl⟩ := hp.eq_positive (Nat.pos_of_ne_zero fun h0 => h (hp.isZero_iff.mpr h0))
  rw [zero_lt_positive]
  exact Nat.pos_of_ne_zero fun h0 => h (hp.isZero_iff.mpr h0)

end Binary

namespace Measurement
open Binary

variable {t : IntType} {f : Format} {scale : Binary f}

theorem discreteLoss_nonDecreasing {loss : Binary f → Binary f}
    (hloss : scale.isZero ≠ true → ∀ x y, Binary.Ascending x y → Binary.Ascending (loss x) (loss y)) :
    NonDecreasing (NumType.int t).Ascending Binary.Ascending
      (discreteLoss (s := .int t) scale loss) := by
  intro d d' hd l' hl'
  have hcast := NumType.ofInt_ascending (f := f) hd
  have hmap : ∀ d : Integer t, discreteLoss (s := .int t) scale loss d =
      .ok (if (ofInt f d.val).isZero then .zero else if scale.isZero then .infinity
        else loss (ofInt f d.val)) := fun _ => rfl
  rw [hmap] at hl'
  obtain rfl := Except.ok.inj hl'
  refine ⟨_, hmap d, ?_⟩
  generalize ofInt f d.val = x at hcast ⊢
  generalize ofInt f d'.val = y at hcast ⊢
  obtain ⟨p, q, hp, hq, hle⟩ := id hcast
  by_cases hx : x.isZero = true
  · rw [if_pos hx]
    apply zero_ascending
    split_ifs with hy hs
    · exact zero_le_zero f
    · exact (infinity_ascending f).zero_le_right
    · exact (hloss hs y y ⟨q, q, hq, hq, le_rfl⟩).zero_le_right
  · have hy : y.isZero ≠ true := by
      rw [hp.isZero_iff] at hx
      rw [ne_eq, hq.isZero_iff]
      omega
    rw [if_neg hx, if_neg hy]
    split_ifs with hs
    · exact infinity_ascending f
    · exact hloss hs x y hcast

end Measurement

/-! ### Losses by measure -/

namespace Measure

/-- No component of the first loss is above that of the second, and a curve that has a value has one
    below it. -/
def LossLe : (μ : Measure) → μ.Loss → μ.Loss → Prop
  | maxDivergence _, l, l' | zeroConcentratedDivergence _, l, l' => l.le l' = true
  | fixedSmoothedMaxDivergence _, l, l' => l.1.le l'.1 = true ∧ l.2.le l'.2 = true
  | smoothedMaxDivergence _, l, l' => ∀ δ ε', l' δ = .ok ε' → ∃ ε, l δ = .ok ε ∧ ε.le ε' = true

/-- As `LossLe`, of losses that are not negative. -/
def Ascending : (μ : Measure) → μ.Loss → μ.Loss → Prop
  | maxDivergence _, l, l' | zeroConcentratedDivergence _, l, l' => Binary.Ascending l l'
  | fixedSmoothedMaxDivergence _, l, l' => Binary.Ascending l.1 l'.1 ∧ Binary.Ascending l.2 l'.2
  | smoothedMaxDivergence _, l, l' => ∀ δ ε', l' δ = .ok ε' → ∃ ε, l δ = .ok ε ∧ Binary.Ascending ε ε'

theorem Ascending.lossLe {μ : Measure} {l l' : μ.Loss} (h : μ.Ascending l l') : μ.LossLe l l' := by
  have hle : ∀ {f : Format} {x y : Binary f}, Binary.Ascending x y → x.le y = true :=
    fun h => (Binary.ascending_iff.mp h).2
  cases μ with
  | maxDivergence f | zeroConcentratedDivergence f => exact hle h
  | fixedSmoothedMaxDivergence f => exact ⟨hle h.1, hle h.2⟩
  | smoothedMaxDivergence f =>
    intro δ ε' hε'
    obtain ⟨ε, hε, hεε'⟩ := h δ ε' hε'
    exact ⟨ε, hε, hle hεε'⟩

theorem compose_ascending {μ : Measure} {add : Composable μ} (hadd : μ.composable? = some add)
    {ls ls' : List μ.Loss} (h : List.Forall₂ μ.Ascending ls ls') :
    μ.Ascending (Composable.compose ls) (Composable.compose ls') := by
  cases μ with
  | maxDivergence f | zeroConcentratedDivergence f =>
    obtain rfl := Option.some.inj hadd
    exact Binary.sumUp_ascending h
  | fixedSmoothedMaxDivergence f =>
    obtain rfl := Option.some.inj hadd
    constructor
    · apply Binary.sumUp_ascending
      rw [List.forall₂_map_left_iff, List.forall₂_map_right_iff]
      exact h.imp fun _ _ => And.left
    · apply Binary.sumUp_ascending
      rw [List.forall₂_map_left_iff, List.forall₂_map_right_iff]
      exact h.imp fun _ _ => And.right
  | smoothedMaxDivergence f => cases hadd

end Measure

/-! ### Measurements -/

namespace Measurement

variable {m m' : Metric} {μ : Measure}

def Monotone (M : Measurement m μ) : Prop :=
  NonDecreasing m.distanceType.Ascending μ.Ascending M.privacyMap

theorem Monotone.mapLoss {μ' : Measure} {M : Measurement m μ} {convert : μ.Loss → Result μ'.Loss}
    (h : M.Monotone) (hconvert : NonDecreasing μ.Ascending μ'.Ascending convert) :
    (M.mapLoss convert).Monotone := h.bind hconvert

variable [Elementary]

/-- What the mechanisms that add noise give by chaining behind transformations, by conversion of a
    pure loss and by composition. -/
inductive Derived : {m : Metric} → {μ : Measure} → Measurement m μ → Prop
  | laplace {caps : Capabilities} {arity : Arity} {f : Format} {scale : Binary f}
      {M : Measurement (arity.summed (.float f)) (.maxDivergence f)}
      (h : laplace caps arity f scale = .ok M) : Derived M
  | gaussian {caps : Capabilities} {arity : Arity} {f : Format} {scale : Binary f}
      {M : Measurement (arity.euclidean (.float f)) (.zeroConcentratedDivergence f)}
      (h : gaussian caps arity f scale = .ok M) : Derived M
  | discreteLaplace {caps : Capabilities} {arity : Arity} {t : IntType} {f : Format}
      {scale : Binary f} {M : Measurement (arity.summed (.int t)) (.maxDivergence f)}
      (h : discreteLaplace caps arity t f scale = .ok M) : Derived M
  | discreteGaussian {caps : Capabilities} {arity : Arity} {t : IntType} {f : Format}
      {scale : Binary f} {M : Measurement (arity.euclidean (.int t)) (.zeroConcentratedDivergence f)}
      (h : discreteGaussian caps arity t f scale = .ok M) : Derived M
  | chain {caps : Capabilities} {m m' : Metric} {μ : Measure} {outer : Measurement m' μ}
      {inner : Transformation m m'} {M : Measurement m μ} (ho : Derived outer)
      (hi : inner.BuiltIn) (h : chain caps outer inner = .ok M) : Derived M
  | pureToFixed {caps : Capabilities} {m : Metric} {f : Format} {P : Measurement m (.maxDivergence f)}
      {M : Measurement m (.fixedSmoothedMaxDivergence f)} (hP : Derived P)
      (h : pureToFixed caps P = .ok M) : Derived M
  | pureToConcentrated {caps : Capabilities} {m : Metric} {f : Format}
      {P : Measurement m (.maxDivergence f)} {M : Measurement m (.zeroConcentratedDivergence f)}
      (hP : Derived P) (h : pureToConcentrated caps P = .ok M) : Derived M
  | eraseOutput {m : Metric} {μ : Measure} {P : Measurement m μ} (hP : Derived P) :
      Derived P.eraseOutput
  | compose {caps : Capabilities} {m : Metric} {μ : Measure} {add : Composable μ}
      {parts : List (Measurement m μ)} {M : Measurement m μ} (hadd : μ.composable? = some add)
      (hparts : ∀ P ∈ parts, Derived P) (h : compose caps parts = .ok M) : Derived M

theorem laplace_monotone {caps : Capabilities} {arity : Arity} {f : Format} {scale : Binary f}
    {M : Measurement (arity.summed (.float f)) (.maxDivergence f)}
    (h : laplace caps arity f scale = .ok M) : M.Monotone := by
  obtain ⟨-, ⟨hfinite, hscale⟩, rfl⟩ := laplace_eq_ok_iff.mp h
  cases arity with
  | scalar | vector =>
    exact nonDecreasing_ok fun _ _ hd =>
      Binary.laplaceLoss_ascending hscale hfinite (NumType.ascending_float_iff.mp hd)

theorem gaussian_monotone {caps : Capabilities} {arity : Arity} {f : Format} {scale : Binary f}
    {M : Measurement (arity.euclidean (.float f)) (.zeroConcentratedDivergence f)}
    (h : gaussian caps arity f scale = .ok M) : M.Monotone := by
  obtain ⟨-, ⟨hfinite, hscale⟩, rfl⟩ := gaussian_eq_ok_iff.mp h
  cases arity with
  | scalar | vector =>
    exact nonDecreasing_ok fun _ _ hd =>
      Binary.gaussianLoss_ascending hscale hfinite (NumType.ascending_float_iff.mp hd)

theorem discreteLaplace_monotone {caps : Capabilities} {arity : Arity} {t : IntType} {f : Format}
    {scale : Binary f} {M : Measurement (arity.summed (.int t)) (.maxDivergence f)}
    (h : discreteLaplace caps arity t f scale = .ok M) : M.Monotone := by
  obtain ⟨-, ⟨hfinite, hscale⟩, rfl⟩ := discreteLaplace_eq_ok_iff.mp h
  cases arity with
  | scalar | vector =>
    exact discreteLoss_nonDecreasing fun hs _ _ =>
      Binary.laplaceLoss_ascending (Binary.zero_lt_of_not_isZero hscale hs) hfinite

theorem discreteGaussian_monotone {caps : Capabilities} {arity : Arity} {t : IntType} {f : Format}
    {scale : Binary f} {M : Measurement (arity.euclidean (.int t)) (.zeroConcentratedDivergence f)}
    (h : discreteGaussian caps arity t f scale = .ok M) : M.Monotone := by
  obtain ⟨-, ⟨hfinite, hscale⟩, rfl⟩ := discreteGaussian_eq_ok_iff.mp h
  cases arity with
  | scalar | vector =>
    exact discreteLoss_nonDecreasing fun hs _ _ =>
      Binary.gaussianLoss_ascending (Binary.zero_lt_of_not_isZero hscale hs) hfinite

theorem Derived.monotone {M : Measurement m μ} (h : M.Derived) : M.Monotone := by
  induction h with
  | laplace h => exact laplace_monotone h
  | gaussian h => exact gaussian_monotone h
  | discreteLaplace h => exact discreteLaplace_monotone h
  | discreteGaussian h => exact discreteGaussian_monotone h
  | chain _ hi h iho =>
    obtain ⟨-, -, rfl⟩ := chain_eq_ok_iff.mp h
    exact hi.monotone.bind iho
  | pureToFixed _ h ih =>
    obtain ⟨-, rfl⟩ := pureToFixed_eq_ok_iff.mp h
    exact ih.mapLoss (nonDecreasing_ok fun _ _ hε =>
      ⟨hε, Binary.zero_ascending (Binary.zero_le_zero _)⟩)
  | pureToConcentrated _ h ih =>
    obtain ⟨-, rfl⟩ := pureToConcentrated_eq_ok_iff.mp h
    exact ih.mapLoss (nonDecreasing_ok fun _ _ hε => hε.squareUp.divUp_two)
  | eraseOutput _ ih => exact ih
  | compose hadd _ h ih =>
    obtain ⟨-, first, others, rfl, -, rfl⟩ := compose_eq_ok_iff.mp h
    exact (NonDecreasing.mapM ih).bind
      (nonDecreasing_ok fun _ _ hls => Measure.compose_ascending hadd hls)

end Measurement

/-- A larger distance never costs less, and a map that has a value at it has one at every smaller
    distance. -/
theorem derived_map_nonDecreasing [Elementary] {m : Metric} {μ : Measure} {M : Measurement m μ}
    (hM : M.Derived) {d d' : m.Distance} (hd : m.Legal d) (hle : m.distanceType.le d d' = true)
    {l' : μ.Loss} (hl' : M.map d' = .ok l') : ∃ l, M.map d = .ok l ∧ μ.LossLe l l' := by
  obtain ⟨_, -, hl'⟩ := bind_eq_ok_iff.mp hl'
  obtain ⟨l, hl, hll'⟩ := hM.monotone d d' ⟨hd, hle⟩ l' hl'
  exact ⟨l, bind_eq_ok_iff.mpr ⟨(), hd, hl⟩, hll'.lossLe⟩

/-- A count is released twice, and its loss is taken to the concentrated measure. -/
theorem derived_map_nonDecreasing_counts :
    ∃ M : Measurement .symmetric (.zeroConcentratedDivergence .binary64),
      @Measurement.Derived .machine _ _ M ∧ ∃ l l',
        M.map ⟨2, by decide, by decide⟩ = .ok l' ∧ M.map ⟨1, by decide, by decide⟩ = .ok l ∧
          l.le l' = true := by
  let _ := Elementary.machine
  have hfinite : (Binary.ofInt .binary64 3).isFinite = true := by decide +kernel
  have hscale : Binary.zero.lt (Binary.ofInt .binary64 3) = true := by decide +kernel
  obtain ⟨L, hL⟩ := ConcentratedLoss.exists_laplace .scalar hfinite hscale
  have hshape : L.inputDomain = .all (.num (.float .binary64)) ∧ ∀ d, L.privacyMap d =
      .ok (Measurement.laplaceLoss (Binary.ofInt .binary64 3) d) := by
    obtain ⟨_, _, h⟩ := bind_eq_ok_iff.mp hL
    obtain ⟨_, _, h⟩ := bind_eq_ok_iff.mp h
    cases h
    exact ⟨rfl, fun _ => rfl⟩
  obtain ⟨T, hT⟩ : ∃ T, Transformation.count .all .bool (.float .binary64) = .ok T := ⟨_, rfl⟩
  have hlink : T.outputDomain.eq L.inputDomain = true := by
    cases hT
    simp [hshape.1, Domain.eq]
  have hC : Measurement.chain .all L T = .ok (L.after T) :=
    Measurement.chain_eq_ok_iff.mpr ⟨rfl, hlink, rfl⟩
  obtain ⟨Z, hZ⟩ : ∃ Z, Measurement.pureToConcentrated .all (L.after T) = .ok Z := ⟨_, rfl⟩
  have hloss : ∀ d : Integer .u32, ∃ l, Z.privacyMap d = .ok l := by
    intro d
    cases hT
    cases hZ
    refine ⟨_, bind_eq_ok_iff.mpr ⟨_, bind_eq_ok_iff.mpr ⟨.ofInt _ d.val, ?_, hshape.2 _⟩, rfl⟩⟩
    exact RoundedCounts.scaleBy_one d
  have hparts : ∀ P ∈ [Z], P.inputDomain.eq Z.inputDomain = true := by
    cases hT
    cases hZ
    simp [Measurement.mapLoss, Measurement.after, Domain.eq]
  have hM : Measurement.compose .all [Z, Z] = .ok (Measurement.product Z [Z, Z]) :=
    Measurement.compose_eq_ok_iff.mpr ⟨rfl, Z, [Z], rfl, hparts, rfl⟩
  have hderived : Measurement.Derived Z :=
    .pureToConcentrated (.chain (.laplace hL) (.count hT) hC) hZ
  have hcomposed : Measurement.Derived (Measurement.product Z [Z, Z]) :=
    .compose rfl (by simp [hderived]) hM
  have hmap : ∃ l', (Measurement.product Z [Z, Z]).map ⟨2, by decide, by decide⟩ = .ok l' := by
    obtain ⟨l, hl⟩ := hloss ⟨2, by decide, by decide⟩
    refine ⟨Binary.sumUp [l, l], bind_eq_ok_iff.mpr ⟨(), rfl, bind_eq_ok_iff.mpr ⟨[l, l], ?_, rfl⟩⟩⟩
    exact mapM_eq_ok_iff.mpr (.cons hl (.cons hl .nil))
  obtain ⟨l', hl'⟩ := hmap
  obtain ⟨l, hl, hle⟩ := derived_map_nonDecreasing hcomposed (d := ⟨1, by decide, by decide⟩)
    rfl (by decide) hl'
  exact ⟨_, hcomposed, l, l', hl', hl, hle⟩

end DifferentialPrivacy
