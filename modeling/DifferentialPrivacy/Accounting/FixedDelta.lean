import DifferentialPrivacy.Accounting.Conversion

set_option autoImplicit false

/-!
Pinning a loss to a single `δ`.
-/

namespace DifferentialPrivacy

namespace Measure

/-- The format that a measure's losses are written in. -/
abbrev format : Measure → Format
  | maxDivergence f => f
  | smoothedMaxDivergence f => f
  | fixedSmoothedMaxDivergence f => f
  | zeroConcentratedDivergence f => f

end Measure

/-- Measures whose losses can be pinned to one `δ`. -/
class DeltaFixable (μ : Measure) where
  /-- The pair `(ε, δ)` that is guaranteed at `δ`. -/
  fixDelta : μ.Loss → Binary μ.format → Result (Binary μ.format × Binary μ.format)

/-- A curve is read off at `δ`. -/
instance (f : Format) : DeltaFixable (.smoothedMaxDivergence f) where
  fixDelta curve δ := do return (← curve δ, δ)

/-- A pair stays as it is, and cannot be had at a smaller `δ` than its own. -/
instance (f : Format) : DeltaFixable (.fixedSmoothedMaxDivergence f) where
  fixDelta pair δ :=
    if δ.lt pair.2 then .error (.undefinedMap (.tightened pair.2.toNumber δ.toNumber))
    else .ok pair

def Measure.deltaFixable? : (μ : Measure) → Option (DeltaFixable μ)
  | smoothedMaxDivergence _ | fixedSmoothedMaxDivergence _ => some inferInstance
  | maxDivergence _ | zeroConcentratedDivergence _ => none

def Measurement.fixDelta {m : Metric} {μ : Measure} [DeltaFixable μ] (caps : Capabilities)
    (M : Measurement m μ) (δ : Binary μ.format) :
    Result (Measurement m (.fixedSmoothedMaxDivergence μ.format)) := do
  caps.require [.contrib]
  if !(Binary.zero.lt δ && δ.lt .one) then throw (.invalidParameter (.delta δ.toNumber))
  return M.mapLoss fun loss => DeltaFixable.fixDelta loss δ

end DifferentialPrivacy
