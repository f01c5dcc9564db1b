import DifferentialPrivacy.Pipeline.Measurement
import DifferentialPrivacy.Random.Noise

set_option autoImplicit false

/-!
Propose, test, release: every count of a map gets Laplace noise, and only the keys whose noisy count
reaches a threshold are released.

A key of only one of two neighbouring maps is taken to have a count of at least one. Shared keys
cost `ε = d / scale`, and the chance of a release of a key that only one side has is at most
`d / 2 · e ^ (-(threshold - d) / scale)`.
-/

namespace DifferentialPrivacy.Measurement

variable [Elementary]

/-- The least `δ` that the threshold supports, rounded up. -/
def releaseTail {f : Format} (scale threshold d : Binary f) : Binary f :=
  let decay := (-((threshold.subDown d).divDown scale)).expUp
  (d.mulUp (Binary.one / .two)).mulUp decay

/-- `ε` at every `δ` in `(0, 1)` that the threshold supports at distance `d`. -/
def releaseCurve {f : Format} (scale threshold d : Binary f) : Curve f := fun δ =>
  if !(Binary.zero.lt δ && δ.lt .one) then .error (.undefinedMap (.delta δ.toNumber))
  else if threshold.lt d then
    .error (.undefinedMap (.thresholdBelowDistance threshold.toNumber d.toNumber))
  else
    let required := releaseTail scale threshold d
    if δ.lt required then .error (.undefinedMap (.deltaBelowTail δ.toNumber required.toNumber))
    else .ok (d.divUp scale)

/-- A count with its noise, if it reaches the threshold. -/
def noisyCount {γ : Type} [Generator γ] {f : Format} (scale threshold : Binary f) :
    Value → Draw γ (Option Value)
  | .num t x =>
    if h : t = .float f then do
      let count : (NumType.float f).Carrier := h ▸ x
      let noisy := count + (← Draw.laplace scale)
      return if threshold.le noisy then some (.float noisy) else none
    else return none
  | _ => return none

def noisyEntries {γ : Type} [Generator γ] {f : Format} (scale threshold : Binary f) :
    List (Value × Value) → Draw γ (List (Value × Value))
  | [] => return []
  | (key, count) :: rest => do
    let kept ← noisyCount scale threshold count
    let rest ← noisyEntries scale threshold rest
    return match kept with
      | some noisy => (key, noisy) :: rest
      | none => rest

def thresholdedCounts (caps : Capabilities) (key : Atom) (f : Format)
    (scale threshold : Binary f) :
    Result (Measurement (.l1 (.float f)) (.smoothedMaxDivergence f)) := do
  caps.require [.contrib, .floatingPoint]
  scale.checkPositive "scale"
  if !threshold.isFinite then throw (.invalidParameter (.threshold threshold.toNumber))
  let domain := Domain.map (.all key) (.all (.num (.float f)))
  return {
    inputDomain := domain
    outputDomain := domain
    function := drawing fun
      | .map counts => do return .map (← noisyEntries scale threshold counts)
      | v => return v
    privacyMap := fun d => .ok (releaseCurve scale threshold d) }

end DifferentialPrivacy.Measurement
