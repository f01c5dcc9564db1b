import DifferentialPrivacy.Error

set_option autoImplicit false

/-!
Privacy-loss measures, their losses, and the budgets that losses are held against.
-/

namespace DifferentialPrivacy

/-- `ε` as a function of `δ`; a curve fails at a `δ` that it does not support. -/
abbrev Curve (f : Format) := Binary f → Result (Binary f)

inductive Measure
  /-- Pure differential privacy; a loss is `ε`. -/
  | maxDivergence (f : Format)
  /-- Approximate differential privacy as a whole curve. -/
  | smoothedMaxDivergence (f : Format)
  /-- Approximate differential privacy at one point; a loss is `(ε, δ)`. -/
  | fixedSmoothedMaxDivergence (f : Format)
  /-- Zero-concentrated differential privacy; a loss is `ρ`. -/
  | zeroConcentratedDivergence (f : Format)
deriving DecidableEq, Repr

namespace Measure

abbrev Loss : Measure → Type
  | maxDivergence f | zeroConcentratedDivergence f => Binary f
  | fixedSmoothedMaxDivergence f => Binary f × Binary f
  | smoothedMaxDivergence f => Curve f

/-- Curves are held against a pair as well. -/
abbrev Budget : Measure → Type
  | maxDivergence f | zeroConcentratedDivergence f => Binary f
  | fixedSmoothedMaxDivergence f | smoothedMaxDivergence f => Binary f × Binary f

def descriptor : Measure → MeasureDescriptor
  | maxDivergence f => .maxDivergence (.num (.float f))
  | smoothedMaxDivergence f => .smoothedMaxDivergence (.num (.float f))
  | fixedSmoothedMaxDivergence f => .fixedSmoothedMaxDivergence (.num (.float f))
  | zeroConcentratedDivergence f => .zeroConcentratedDivergence (.num (.float f))

/-- Whether a loss fits a budget: pairs fit componentwise, and a curve fits `(ε, δ)` when its value
    at `δ` is at most `ε`. -/
def within : (μ : Measure) → μ.Loss → μ.Budget → Result Bool
  | maxDivergence _, loss, budget | zeroConcentratedDivergence _, loss, budget =>
    .ok (loss.le budget)
  | fixedSmoothedMaxDivergence _, loss, budget =>
    .ok (loss.1.le budget.1 && loss.2.le budget.2)
  | smoothedMaxDivergence _, curve, budget => do
    return (← curve budget.2).le budget.1

end Measure
end DifferentialPrivacy
