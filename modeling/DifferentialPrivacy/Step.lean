import DifferentialPrivacy.Accounting.Composition
import DifferentialPrivacy.Accounting.FixedDelta
import DifferentialPrivacy.Accounting.Amplification

set_option autoImplicit false

/-!
Steps of any kind, for pipelines that are put together while a program runs. Metrics and measures
are part of a step here and no longer of its type, so every way of combining steps first asks
whether the kinds fit; `none` says that they do not, and anything else is what the typed operation
says.
-/

namespace DifferentialPrivacy

inductive Step
  | transformation {m m' : Metric} (t : Transformation m m')
  | measurement {m : Metric} {μ : Measure} (M : Measurement m μ)
  | postprocessor (p : Postprocessor)

namespace Step

def display : Step → String
  | transformation t => t.descriptor.display
  | measurement M => M.descriptor.display
  | postprocessor p => p.display

/-- The measurement under the given metric and measure, if that is what the step is. -/
def measurement? (m : Metric) (μ : Measure) : Step → Option (Measurement m μ)
  | @measurement n ν M => if h : n = m ∧ ν = μ then some (h.1 ▸ h.2 ▸ M) else none
  | _ => none

/-- `outer` after `inner`. A release may be followed by any transformation, and data only by one
    whose metric is the one it comes with. -/
def chain? (caps : Capabilities) : (outer inner : Step) → Option (Result Step)
  | @transformation n _ outer, @transformation _ m inner =>
    if h : m = n then some ((Transformation.chain caps (h ▸ outer) inner).map transformation)
    else none
  | @measurement n _ outer, @transformation _ m inner =>
    if h : m = n then some ((Measurement.chain caps (h ▸ outer) inner).map measurement) else none
  | transformation outer, measurement inner =>
    some ((Measurement.transformRelease caps outer inner).map measurement)
  | postprocessor outer, measurement inner =>
    some ((Measurement.postprocess caps outer inner).map measurement)
  | _, _ => none

/-- Composition. With no parts there is no measure to look at, and any of them fails in the same
    way. -/
def compose? (caps : Capabilities) (parts : List Step) : Option (Result Step) :=
  match parts with
  | [] =>
    let none : List (Measurement .symmetric (.maxDivergence .binary64)) := []
    some ((Measurement.compose caps none).map measurement)
  | @measurement m μ _ :: _ => do
    let parts ← parts.mapM (measurement? m μ)
    let add ← μ.composable?
    return (@Measurement.compose m μ add caps parts).map measurement
  | _ => none

def pureToFixed? (caps : Capabilities) : Step → Option (Result Step)
  | @measurement _ (.maxDivergence _) M => some ((M.pureToFixed caps).map measurement)
  | _ => none

def pureToConcentrated? (caps : Capabilities) : Step → Option (Result Step)
  | @measurement _ (.maxDivergence _) M => some ((M.pureToConcentrated caps).map measurement)
  | _ => none

def concentratedToCurve? [Elementary] (caps : Capabilities) : Step → Option (Result Step)
  | @measurement _ (.zeroConcentratedDivergence _) M =>
    some ((M.concentratedToCurve caps).map measurement)
  | _ => none

/-- The delta is read from the format of the measure's losses. -/
def fixDelta? (caps : Capabilities) (delta : (f : Format) → Option (Binary f)) :
    Step → Option (Result Step)
  | @measurement m μ M => do
    let fixable ← μ.deltaFixable?
    return (@Measurement.fixDelta m μ fixable caps M (← delta μ.format)).map measurement
  | _ => none

def amplify? [Elementary] (caps : Capabilities) (population : Nat) : Step → Option (Result Step)
  | @measurement m μ M => do
    let amplifiable ← μ.amplifiable?
    return (@Measurement.amplify m μ amplifiable caps M population).map measurement
  | _ => none

def eraseOutput? : Step → Option Step
  | measurement M => some (measurement M.eraseOutput)
  | _ => none

end Step
end DifferentialPrivacy
