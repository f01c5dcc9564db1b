import DifferentialPrivacy.Pipeline.Transformation

set_option autoImplicit false

/-!
Sums of bounded integers in their own type, without wrapping. Positive and negative records are
summed apart, or all records share one sign, so that saturation only ever loses mass toward zero and
one record never moves the result by more than its own magnitude.
-/

namespace DifferentialPrivacy

namespace Integer

variable {t : IntType}

/-- Adds a number to the first part if it is negative, and else to the second. -/
def addToPart (s : Integer t × Integer t) (x : Integer t) : Integer t × Integer t :=
  if x.val < 0 then (s.1.saturatingAdd x, s.2) else (s.1, s.2.saturatingAdd x)

/-- The saturating sum of the negative numbers and that of the others. -/
def splitParts (xs : List (Integer t)) : Integer t × Integer t := xs.foldl addToPart (zero, zero)

def splitSum (xs : List (Integer t)) : Integer t :=
  (splitParts xs).1.saturatingAdd (splitParts xs).2

/-- The saturating sum, exact as long as all numbers share one sign and the total fits. -/
def monotonicSum (xs : List (Integer t)) : Integer t := xs.foldl saturatingAdd zero

def shareSign (lower upper : Integer t) : Bool :=
  (0 ≤ lower.val && 0 ≤ upper.val) || (lower.val ≤ 0 && upper.val ≤ 0)

/-- The magnitude of a bound. The least number of a signed type has none. -/
def magnitude (x : Integer t) : Result (Integer t) :=
  if 0 ≤ x.val then .ok x
  else
    match zero.checkedSub? x with
    | some a => .ok a
    | none => .error (.invalidParameter (.magnitude x.toNumber))

def largerMagnitude (lower upper : Integer t) : Result (Integer t) := do
  let a ← lower.magnitude
  let b ← upper.magnitude
  return if b.val < a.val then a else b

def range (lower upper : Integer t) : Result (Integer t) :=
  match upper.checkedSub? lower with
  | some r => .ok r
  | none => .error (.invalidParameter (.range lower.toNumber upper.toNumber))

/-- `n` times `sensitivity`, where `n` is first taken to the type. -/
def scaledBy (sensitivity : Integer t) (n : Integer .u32) : Result (Integer t) := do
  let n ← NumType.cast (.int .u32) (.int t) n
  match n.checkedMul? sensitivity with
  | some d => return d
  | none => throw (.undefinedMap (.overflow n.toNumber sensitivity.toNumber))

/-- Half of a distance, rounded down: datasets of one size that far apart differ by so many
    substitutions. -/
def substitutions (d : Integer .u32) : Integer .u32 := .clamp _ (d.val / 2)

end Integer

def Value.integers (t : IntType) (v : Value) : List (Integer t) :=
  v.elements.filterMap fun
    | .num (.int s) x => if h : s = t then some (h ▸ x) else none
    | _ => none

inductive SumMethod
  | split
  | monotonic
deriving DecidableEq, Repr

namespace SumMethod

variable {t : IntType}

def sum : SumMethod → List (Integer t) → Integer t
  | split => Integer.splitSum
  | monotonic => Integer.monotonicSum

/-- A single accumulator is sound only if it moves one way, away from zero. -/
def checkSigns : SumMethod → Integer t → Integer t → Result Unit
  | split, _, _ => .ok ()
  | monotonic, lower, upper =>
    if Integer.shareSign lower upper then .ok ()
    else .error (.invalidParameter (.mixedSigns lower.toNumber upper.toNumber))

end SumMethod

namespace Transformation

/-- The sum of any number of records between two bounds. One record more or less moves it by at most
    the larger magnitude of the bounds. -/
def boundedSum (method : SumMethod) (caps : Capabilities) (t : IntType)
    (lower upper : Integer t) : Result (Transformation .symmetric (.absolute (.int t))) := do
  caps.require [.contrib]
  method.checkSigns lower upper
  let interval ← Interval.ofBounds (.int t) lower upper
  let sensitivity ← Integer.largerMagnitude lower upper
  return {
    inputDomain := .vector (.bounded (.int t) interval)
    outputDomain := .all (.num (.int t))
    function := fun v => .ok (.int (method.sum (v.integers t)))
    stabilityMap := sensitivity.scaledBy }

/-- The sum of exactly `size` records between two bounds. Each substitution moves it by at most the
    distance of the bounds. -/
def sizedBoundedSum (method : SumMethod) (caps : Capabilities) (size : Nat) (t : IntType)
    (lower upper : Integer t) : Result (Transformation .symmetric (.absolute (.int t))) := do
  caps.require [.contrib]
  method.checkSigns lower upper
  let interval ← Interval.ofBounds (.int t) lower upper
  let range ← Integer.range lower upper
  return {
    inputDomain := .sized (.vector (.bounded (.int t) interval)) size
    outputDomain := .all (.num (.int t))
    function := fun v => .ok (.int (method.sum (v.integers t)))
    stabilityMap := fun d => range.scaledBy (Integer.substitutions d) }

end Transformation
end DifferentialPrivacy
