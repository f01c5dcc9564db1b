import DifferentialPrivacy.Pipeline.Measurement
import DifferentialPrivacy.Number.Elementary

set_option autoImplicit false

/-!
Conversion between measures. Each conversion keeps the function, the domains and the input metric of
a measurement, and puts another map in place of its own.

A `ρ` of zero-concentrated privacy gives, at every `δ` and for every `α > 1`,

  `ε = α ρ + ln (1 - 1/α) + (ln (1/δ) - ln α) / (α - 1)`,

and `approximateEpsilon` evaluates it, rounded up, at an `α` where it is nearly least.
-/

namespace DifferentialPrivacy

section Curve

variable {f : Format} [Elementary]

def epsilonSlope (ρ lnInvDelta α : Binary f) : Binary f :=
  let beyond := α - .one
  ρ - (lnInvDelta - Elementary.ln α) / (beyond * beyond)

/-- One step of bisection for the zero of the slope, unless no value lies between the two ends. -/
def bisectOnce? (ρ lnInvDelta : Binary f) (ends : Binary f × Binary f) :
    Option (Binary f × Binary f) :=
  let (low, high) := ends
  let mid := low + (high - low) / .two
  if mid.eq low || mid.eq high then none
  else if (epsilonSlope ρ lnInvDelta mid).lt .zero then some (mid, high)
  else some (low, mid)

/-- Bisection until it stops. Every step leaves fewer values between the ends. -/
def bisect (ρ lnInvDelta : Binary f) : Nat → Binary f × Binary f → Binary f × Binary f
  | 0, ends => ends
  | steps + 1, ends =>
    match bisectOnce? ρ lnInvDelta ends with
    | none => ends
    | some ends => bisect ρ lnInvDelta steps ends

/-- The number of steps along the float line from `x` to `y`. -/
def Binary.gap (x y : Binary f) : Nat :=
  match x.ordinal?, y.ordinal? with
  | some a, some b => (b - a).toNat
  | _, _ => 0

/-- The ends between which the slope changes its sign: it is negative near one, and positive from
    `2 + √(ln (1/δ) / ρ)` on. -/
def bisectionStart (ρ lnInvDelta : Binary f) : Binary f × Binary f :=
  (.one, .two + (lnInvDelta / ρ).sqrt)

def optimalAlpha (ρ lnInvDelta : Binary f) : Binary f :=
  let start := bisectionStart ρ lnInvDelta
  (bisect ρ lnInvDelta (start.1.gap start.2) start).2

def epsilonAt (ρ δ α : Binary f) : Binary f :=
  let linear := α.mulUp ρ
  let logRatio := (-(Binary.one.divDown α)).lnOnePlusUp
  let numerator := (-δ.lnDown).subUp α.lnDown
  let tail :=
    if Binary.zero.le numerator then numerator.divUp (α.subDown .one)
    else numerator.divUp (α.subUp .one)
  (linear.addUp logRatio).addUp tail

/-- The `ε` at `δ` of zero-concentrated privacy with `ρ`. -/
def approximateEpsilon (ρ δ : Binary f) : Result (Binary f) :=
  if !Binary.zero.le ρ then .error (.undefinedMap (.rho ρ.toNumber))
  else if !(Binary.zero.lt δ && δ.lt .one) then .error (.undefinedMap (.delta δ.toNumber))
  else if ρ.isZero then .ok .zero
  else if ρ.isInfinite then .ok ρ
  else .ok ((epsilonAt ρ δ (optimalAlpha ρ (-Elementary.ln δ))).max .zero)

end Curve

namespace Measurement

variable {m : Metric} {μ : Measure} {f : Format}

def mapLoss {μ' : Measure} (M : Measurement m μ) (convert : μ.Loss → Result μ'.Loss) :
    Measurement m μ' where
  inputDomain := M.inputDomain
  outputDomain := M.outputDomain
  function := M.function
  privacyMap d := do convert (← M.privacyMap d)

/-- `ε`-privacy is `(ε, 0)`-privacy. -/
def pureToFixed (caps : Capabilities) (M : Measurement m (.maxDivergence f)) :
    Result (Measurement m (.fixedSmoothedMaxDivergence f)) := do
  caps.require [.contrib]
  return M.mapLoss fun ε => .ok (ε, .zero)

/-- `ε`-privacy is zero-concentrated privacy with `ρ = ε² / 2`. -/
def pureToConcentrated (caps : Capabilities) (M : Measurement m (.maxDivergence f)) :
    Result (Measurement m (.zeroConcentratedDivergence f)) := do
  caps.require [.contrib]
  return M.mapLoss fun ε => .ok (ε.squareUp.divUp .two)

/-- Zero-concentrated privacy is approximate privacy along a whole curve. -/
def concentratedToCurve [Elementary] (caps : Capabilities)
    (M : Measurement m (.zeroConcentratedDivergence f)) :
    Result (Measurement m (.smoothedMaxDivergence f)) := do
  caps.require [.contrib]
  return M.mapLoss fun ρ => .ok (approximateEpsilon ρ)

end Measurement
end DifferentialPrivacy
