import DifferentialPrivacy.Pipeline.Measurement
import DifferentialPrivacy.Number.Directed

set_option autoImplicit false

/-!
Basic composition: several measurements of the same data, whose losses add up.
-/

namespace DifferentialPrivacy

/-- Measures under which the losses of independent releases add up. -/
class Composable (μ : Measure) where
  compose : List μ.Loss → μ.Loss

namespace Binary

/-- The sum of a list from left to right, every step rounded up. -/
def sumUp {f : Format} (xs : List (Binary f)) : Binary f := xs.foldl addUp zero

end Binary

instance (f : Format) : Composable (.maxDivergence f) := ⟨Binary.sumUp⟩

instance (f : Format) : Composable (.zeroConcentratedDivergence f) := ⟨Binary.sumUp⟩

instance (f : Format) : Composable (.fixedSmoothedMaxDivergence f) :=
  ⟨fun losses => (Binary.sumUp (losses.map Prod.fst), Binary.sumUp (losses.map Prod.snd))⟩

/-- How losses add up under a measure. Whole curves do not. -/
def Measure.composable? : (μ : Measure) → Option (Composable μ)
  | maxDivergence _ | zeroConcentratedDivergence _ | fixedSmoothedMaxDivergence _ =>
    some inferInstance
  | smoothedMaxDivergence _ => none

namespace Measurement

variable {m : Metric} {μ : Measure}

/-- Runs every measurement on the same data, each with entropy of its own. -/
def runAll (parts : List (Measurement m μ)) (entropy : Entropy) (x : Value) :
    Result (List Value) :=
  parts.zipIdx.mapM fun part => part.1.function (entropy.child part.2) x

/-- Releases what every measurement of a list releases of the same data. The loss is the sum of
    theirs at the same distance. -/
def compose [Composable μ] (caps : Capabilities) (parts : List (Measurement m μ)) :
    Result (Measurement m μ) := do
  caps.require [.contrib]
  match parts with
  | [] => throw .emptyComposition
  | first :: others =>
    others.forM fun other => checkLink "input domain" first.inputDomain other.inputDomain
    return {
      inputDomain := first.inputDomain
      outputDomain := .product first.outputDomain.type (parts.map (·.outputDomain))
      function := fun entropy x => do return .list (← runAll parts entropy x)
      privacyMap := fun d => do
        return Composable.compose (← parts.mapM fun part => part.privacyMap d) }

end Measurement
end DifferentialPrivacy
