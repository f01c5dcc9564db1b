import DifferentialPrivacy.Pipeline.Transformation
import DifferentialPrivacy.Random.Generator
import DifferentialPrivacy.Measure

set_option autoImplicit false

/-!
Measurements: randomized steps with a bound on the privacy loss, and postprocessors, the steps that
may follow a release at no further loss.
-/

namespace DifferentialPrivacy

structure Measurement (m : Metric) (μ : Measure) where
  inputDomain : Domain
  outputDomain : Domain
  function : Entropy → Value → Result Value
  /-- Bounds the privacy loss by the distance of the inputs. -/
  privacyMap : m.Distance → Result μ.Loss

structure Postprocessor where
  inputDomain : Domain
  outputDomain : Domain
  function : Value → Result Value

namespace Measurement

variable {m m' : Metric} {μ : Measure}

def invoke (M : Measurement m μ) (entropy : Entropy) (x : Value) : Result Value :=
  invokeBetween M.inputDomain M.outputDomain (M.function entropy) x

/-- The privacy loss for inputs at most `d` apart. -/
def map (M : Measurement m μ) (d : m.Distance) : Result μ.Loss := do
  m.distanceType.checkDistance d
  M.privacyMap d

/-- Whether the loss for inputs at most `d` apart fits the budget. -/
def check (M : Measurement m μ) (d : m.Distance) (budget : μ.Budget) : Result Bool := do
  μ.within (← M.map d) budget

def descriptor (M : Measurement m μ) : MeasurementDescriptor where
  inputDomain := M.inputDomain.descriptor
  outputDomain := M.outputDomain.descriptor
  inputMetric := m.descriptor
  outputMeasure := μ.descriptor

/-- Releases with `outer` what `inner` makes of the data. -/
def chain (caps : Capabilities) (outer : Measurement m' μ) (inner : Transformation m m') :
    Result (Measurement m μ) := do
  caps.require [.contrib]
  checkLink intermediateDomain outer.inputDomain inner.outputDomain
  return {
    inputDomain := inner.inputDomain
    outputDomain := outer.outputDomain
    function := fun entropy x => do outer.function entropy (← inner.function x)
    privacyMap := fun d => do outer.privacyMap (← inner.stabilityMap d) }

/-- Applies `outer` to what `inner` released. -/
def postprocess (caps : Capabilities) (outer : Postprocessor) (inner : Measurement m μ) :
    Result (Measurement m μ) := do
  caps.require [.contrib]
  checkLink intermediateDomain outer.inputDomain inner.outputDomain
  return {
    inputDomain := inner.inputDomain
    outputDomain := outer.outputDomain
    function := fun entropy x => do outer.function (← inner.function entropy x)
    privacyMap := inner.privacyMap }

/-- A transformation of a release only processes it further, so its metrics and map play no part. -/
def transformRelease {m₁ m₂ : Metric} (caps : Capabilities) (outer : Transformation m₁ m₂)
    (inner : Measurement m μ) : Result (Measurement m μ) :=
  postprocess caps ⟨outer.inputDomain, outer.outputDomain, outer.function⟩ inner

/-- Erases the type of the output, so that measurements with different outputs compose. -/
def eraseOutput (M : Measurement m μ) : Measurement m μ where
  inputDomain := M.inputDomain
  outputDomain := .erased M.outputDomain
  function entropy x := do
    return .erased M.outputDomain.valueType (← M.function entropy x)
  privacyMap := M.privacyMap

/-- A step whose function and map the caller vouches for. -/
def supplied (caps : Capabilities) (inputDomain outputDomain : Domain)
    (function : Entropy → Value → Result Value) (privacyMap : m.Distance → Result μ.Loss) :
    Result (Measurement m μ) := do
  caps.require [.contrib, .honestButCurious]
  return { inputDomain, outputDomain, function, privacyMap }

end Measurement

namespace Postprocessor

def invoke (p : Postprocessor) (x : Value) : Result Value :=
  invokeBetween p.inputDomain p.outputDomain p.function x

def display (p : Postprocessor) : String :=
  "Postprocessor(" ++ p.inputDomain.descriptor.display ++ " -> "
    ++ p.outputDomain.descriptor.display ++ ")"

/-- No function of a release weakens its guarantee, so the caller need not vouch for anything. -/
def supplied (caps : Capabilities) (inputDomain outputDomain : Domain)
    (function : Value → Result Value) : Result Postprocessor := do
  caps.require [.contrib]
  return { inputDomain, outputDomain, function }

end Postprocessor

/-- What an erased value was, if it had the expected type. -/
def Value.recover (expected : ValueType) : Value → Result Value
  | .erased found v =>
    if found = expected then .ok v else .error (.failedCast (.erased expected found))
  | _ => .error (.failedCast (.erased expected .erased))

end DifferentialPrivacy
