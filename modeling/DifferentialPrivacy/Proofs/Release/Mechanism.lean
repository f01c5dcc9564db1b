import DifferentialPrivacy.Proofs.Pipeline.ChainedMap
import DifferentialPrivacy.Release.Noise
import DifferentialPrivacy.Release.RandomizedResponse

set_option autoImplicit false

/-!
# What mechanisms are made of

A mechanism is built if and only if its capabilities are enabled and its parameter passes the check of
its kind, and there is one way to build it.
-/
namespace DifferentialPrivacy

variable {f : Format} {scale : Binary f}

theorem Binary.checkPositive_eq_ok_iff {name : String} : scale.checkPositive name = .ok () ↔
    scale.isFinite = true ∧ zero.lt scale = true := by
  unfold checkPositive
  rw [← Bool.and_eq_true]
  split <;> simp_all

namespace Measurement

theorem checkScale_eq_ok_iff :
    checkScale scale = .ok () ↔ scale.isFinite = true ∧ Binary.zero.le scale = true := by
  unfold checkScale
  rw [← Bool.and_eq_true]
  split <;> simp_all

/-- A mechanism that adds noise to one number or to each of a list. -/
def perturbing {m : Metric} {μ : Measure} (arity : Arity) (t : NumType)
    (noisy : t.Carrier → Draw ChaCha t.Carrier) (loss : m.Distance → Result μ.Loss) :
    Measurement m μ where
  inputDomain := arity.domain t
  outputDomain := arity.domain t
  function := drawing (Value.perturb t noisy)
  privacyMap := loss

section Noise

variable [Elementary] {caps : Capabilities} {arity : Arity} {t : IntType}

theorem laplace_eq_ok_iff {M : Measurement (arity.summed (.float f)) (.maxDivergence f)} :
    laplace caps arity f scale = .ok M ↔ caps.require [.contrib, .floatingPoint] = .ok () ∧
      (scale.isFinite = true ∧ Binary.zero.lt scale = true) ∧
      M = perturbing arity (.float f) (fun x => do return x + (← Draw.laplace scale))
        (match (motive := ∀ arity : Arity, (arity.summed (.float f)).Distance → _) arity with
          | .scalar | .vector => fun d => .ok (laplaceLoss scale d)) :=
  checked_eq_ok_iff.trans (and_congr_right' (and_congr_left' Binary.checkPositive_eq_ok_iff))

theorem gaussian_eq_ok_iff
    {M : Measurement (arity.euclidean (.float f)) (.zeroConcentratedDivergence f)} :
    gaussian caps arity f scale = .ok M ↔ caps.require [.contrib, .floatingPoint] = .ok () ∧
      (scale.isFinite = true ∧ Binary.zero.lt scale = true) ∧
      M = perturbing arity (.float f) (fun x => do return x + (← Draw.gaussian scale))
        (match (motive := ∀ arity : Arity, (arity.euclidean (.float f)).Distance → _) arity with
          | .scalar | .vector => fun d => .ok (gaussianLoss scale d)) :=
  checked_eq_ok_iff.trans (and_congr_right' (and_congr_left' Binary.checkPositive_eq_ok_iff))

theorem discreteLaplace_eq_ok_iff {M : Measurement (arity.summed (.int t)) (.maxDivergence f)} :
    discreteLaplace caps arity t f scale = .ok M ↔ caps.require [.contrib] = .ok () ∧
      (scale.isFinite = true ∧ Binary.zero.le scale = true) ∧
      M = perturbing arity (.int t)
        (fun x => do return x.addNoise (← Draw.discreteLaplace (scale.convert _)))
        (discreteLoss scale (laplaceLoss scale)) :=
  checked_eq_ok_iff.trans (and_congr_right' (and_congr_left' checkScale_eq_ok_iff))

theorem discreteGaussian_eq_ok_iff
    {M : Measurement (arity.euclidean (.int t)) (.zeroConcentratedDivergence f)} :
    discreteGaussian caps arity t f scale = .ok M ↔ caps.require [.contrib] = .ok () ∧
      (scale.isFinite = true ∧ Binary.zero.le scale = true) ∧
      M = perturbing arity (.int t)
        (fun x => do return x.addNoise (← Draw.discreteGaussian (scale.convert _)))
        (discreteLoss scale (gaussianLoss scale)) :=
  checked_eq_ok_iff.trans (and_congr_right' (and_congr_left' checkScale_eq_ok_iff))

end Noise

section Response

variable [Elementary] {caps : Capabilities} {p : Binary f} {M : Measurement .discrete (.maxDivergence f)}

theorem randomizedResponseBool_eq_ok_iff : randomizedResponseBool caps f p = .ok M ↔
    caps.require [.contrib] = .ok () ∧ checkProbability p 2 = .ok () ∧ M =
      { inputDomain := .all .bool
        outputDomain := .all .bool
        function := drawing fun truth => do
          return respondBool truth (← Draw.bernoulli (p.convert _))
        privacyMap := discreteMap (oddsUp p).lnUp } :=
  checked_eq_ok_iff

theorem randomizedResponse_eq_ok_iff {a : Atom} {categories : Categories} :
    randomizedResponse caps a categories f p = .ok M ↔ caps.require [.contrib] = .ok () ∧
      2 ≤ categories.values.length ∧ checkProbability p categories.values.length = .ok () ∧ M =
        { inputDomain := .all a
          outputDomain := .all a
          function := drawing (categories.report Draw.index (Draw.bernoulli (p.convert _)))
          privacyMap := discreteMap
            ((oddsUp p).mulUp ((Binary.ofInt f categories.values.length).subUp .one)).lnUp } := by
  rw [← Nat.not_lt]
  constructor
  · intro h
    obtain ⟨_, hcaps, h⟩ := bind_eq_ok_iff.mp h
    dsimp only at h
    split at h
    · cases h
    · rename_i htwo
      obtain ⟨_, hp, h⟩ := bind_eq_ok_iff.mp h
      exact ⟨hcaps, htwo, hp, (Except.ok.inj h).symm⟩
  · rintro ⟨hcaps, htwo, hp, rfl⟩
    refine bind_eq_ok_iff.mpr ⟨_, hcaps, ?_⟩
    dsimp only
    rw [if_neg htwo]
    exact bind_eq_ok_iff.mpr ⟨_, hp, rfl⟩

end Response

end Measurement
end DifferentialPrivacy
