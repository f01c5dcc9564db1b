import DifferentialPrivacy.Accounting.Conversion

set_option autoImplicit false

/-!
Amplification by subsampling: data that is a simple random sample from a larger population costs
less.
-/

namespace DifferentialPrivacy

def samplingRate (f : Format) (population sample : Nat) : Binary f :=
  (Binary.ofInt f sample).divUp (.ofInt f population)

/-- `ln (1 + rate · (e ^ ε - 1))`, rounded up. -/
def amplifyEpsilon [Elementary] {f : Format} (ε rate : Binary f) : Binary f :=
  (ε.expMinusOneUp.mulUp rate).lnOnePlusUp

/-- Measures that tighten when the data is a sample. -/
class Amplifiable (μ : Measure) where
  /-- The loss to the population, given that to the sample. -/
  amplify : μ.Loss → (population sample : Nat) → μ.Loss

variable [Elementary]

instance (f : Format) : Amplifiable (.maxDivergence f) where
  amplify ε population sample := amplifyEpsilon ε (samplingRate f population sample)

instance (f : Format) : Amplifiable (.fixedSmoothedMaxDivergence f) where
  amplify loss population sample :=
    let rate := samplingRate f population sample
    (amplifyEpsilon loss.1 rate, loss.2.mulUp rate)

def Measure.amplifiable? : (μ : Measure) → Option (Amplifiable μ)
  | maxDivergence _ | fixedSmoothedMaxDivergence _ => some inferInstance
  | smoothedMaxDivergence _ | zeroConcentratedDivergence _ => none

def Domain.size? : Domain → Option Nat
  | .sized _ n => some n
  | _ => none

/-- Takes the data, of prescribed size, for a simple random sample without replacement from a
    population. The size of the population rests on the caller's word. -/
def Measurement.amplify {m : Metric} {μ : Measure} [Amplifiable μ] (caps : Capabilities)
    (M : Measurement m μ) (population : Nat) : Result (Measurement m μ) := do
  caps.require [.contrib, .honestButCurious]
  match M.inputDomain.size? with
  | none => throw (.invalidParameter .noSampleSize)
  | some sample =>
    if population = 0 || population < sample then
      throw (.invalidParameter (.population population sample))
    return M.mapLoss fun loss => .ok (Amplifiable.amplify loss population sample)

end DifferentialPrivacy
