import DifferentialPrivacy.Pipeline.Measurement
import DifferentialPrivacy.Random.Noise
import DifferentialPrivacy.Number.Directed

set_option autoImplicit false

/-!
Mechanisms that add noise to a number, or to each number of a list. Laplace noise hides a distance
summed over the list, Gaussian noise a Euclidean one.
-/

namespace DifferentialPrivacy

/-- Whether noise is added to one number or to each of a list. -/
inductive Arity
  | scalar
  | vector
deriving DecidableEq, Repr

namespace Arity

def domain (arity : Arity) (t : NumType) : Domain :=
  match arity with
  | scalar => .all (.num t)
  | vector => .vectorOf (.num t)

abbrev summed (arity : Arity) (t : NumType) : Metric :=
  match arity with
  | scalar => .absolute t
  | vector => .l1 t

abbrev euclidean (arity : Arity) (t : NumType) : Metric :=
  match arity with
  | scalar => .absolute t
  | vector => .l2 t

variable {t : NumType}

/-- A distance as one of the summed metric, be it of one number or of a list. -/
def summedDistance : (arity : Arity) → t.Carrier → (arity.summed t).Distance
  | scalar, d => d
  | vector, d => d

def euclideanDistance : (arity : Arity) → t.Carrier → (arity.euclidean t).Distance
  | scalar, d => d
  | vector, d => d

end Arity

namespace Integer

variable {t : IntType}

/-- Adds noise to an integer without wrapping. Noise whose magnitude the type cannot hold goes all
    the way to the end of the type. -/
def addNoise (x : Integer t) (noise : Int) : Integer t :=
  if 0 ≤ noise then
    match ofInt? t noise with
    | some n => x.saturatingAdd n
    | none => .max
  else
    match ofInt? t noise.natAbs with
    | some n => x.saturatingSub n
    | none => .least

end Integer

namespace Value

variable {γ : Type}

def perturbNumber (t : NumType) (noisy : t.Carrier → Draw γ t.Carrier) : Value → Draw γ Value
  | .num s x => if h : s = t then do return .num t (← noisy (h ▸ x)) else return .num s x
  | v => return v

/-- Perturbs a number, or each number of a list in turn. -/
def perturb (t : NumType) (noisy : t.Carrier → Draw γ t.Carrier) : Value → Draw γ Value
  | .list xs => do return .list (← xs.mapM (perturbNumber t noisy))
  | v => v.perturbNumber t noisy

end Value

namespace Measurement

/-- The loss of a mechanism with discrete noise: none at distance zero, and an infinite one at any
    other distance if the scale is zero. -/
def discreteLoss {s : NumType} {f : Format} (scale : Binary f) (loss : Binary f → Binary f)
    (d : s.Carrier) : Result (Binary f) := do
  let d ← s.cast (.float f) d
  return if d.isZero then .zero else if scale.isZero then .infinity else loss d

/-- `ε = d / scale` -/
def laplaceLoss {f : Format} (scale d : Binary f) : Binary f := d.divUp scale

/-- `ρ = (d / scale)² / 2` -/
def gaussianLoss {f : Format} (scale d : Binary f) : Binary f :=
  ((d.divUp scale).squareUp).divUp .two

def checkScale {f : Format} (scale : Binary f) : Result Unit :=
  if scale.isFinite && Binary.zero.le scale then .ok ()
  else .error (.invalidParameter (.negativeScale scale.toNumber))

variable [Elementary]

def laplace (caps : Capabilities) (arity : Arity) (f : Format) (scale : Binary f) :
    Result (Measurement (arity.summed (.float f)) (.maxDivergence f)) := do
  caps.require [.contrib, .floatingPoint]
  scale.checkPositive "scale"
  let noisy (x : Binary f) : Draw ChaCha (Binary f) := do return x + (← Draw.laplace scale)
  return {
    inputDomain := arity.domain (.float f)
    outputDomain := arity.domain (.float f)
    function := drawing (Value.perturb (.float f) noisy)
    privacyMap :=
      match arity with
      | .scalar | .vector => fun d => .ok (laplaceLoss scale d) }

def gaussian (caps : Capabilities) (arity : Arity) (f : Format) (scale : Binary f) :
    Result (Measurement (arity.euclidean (.float f)) (.zeroConcentratedDivergence f)) := do
  caps.require [.contrib, .floatingPoint]
  scale.checkPositive "scale"
  let noisy (x : Binary f) : Draw ChaCha (Binary f) := do return x + (← Draw.gaussian scale)
  return {
    inputDomain := arity.domain (.float f)
    outputDomain := arity.domain (.float f)
    function := drawing (Value.perturb (.float f) noisy)
    privacyMap :=
      match arity with
      | .scalar | .vector => fun d => .ok (gaussianLoss scale d) }

/-- Adds discrete Laplace noise to integers. A scale of zero releases the input as it is. -/
def discreteLaplace (caps : Capabilities) (arity : Arity) (t : IntType) (f : Format)
    (scale : Binary f) : Result (Measurement (arity.summed (.int t)) (.maxDivergence f)) := do
  caps.require [.contrib]
  checkScale scale
  let noisy (x : Integer t) : Draw ChaCha (Integer t) := do
    return x.addNoise (← Draw.discreteLaplace (scale.convert _))
  return {
    inputDomain := arity.domain (.int t)
    outputDomain := arity.domain (.int t)
    function := drawing (Value.perturb (.int t) noisy)
    privacyMap := discreteLoss scale (laplaceLoss scale) }

def discreteGaussian (caps : Capabilities) (arity : Arity) (t : IntType) (f : Format)
    (scale : Binary f) :
    Result (Measurement (arity.euclidean (.int t)) (.zeroConcentratedDivergence f)) := do
  caps.require [.contrib]
  checkScale scale
  let noisy (x : Integer t) : Draw ChaCha (Integer t) := do
    return x.addNoise (← Draw.discreteGaussian (scale.convert _))
  return {
    inputDomain := arity.domain (.int t)
    outputDomain := arity.domain (.int t)
    function := drawing (Value.perturb (.int t) noisy)
    privacyMap := discreteLoss scale (gaussianLoss scale) }

end Measurement
end DifferentialPrivacy
