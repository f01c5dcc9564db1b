import DifferentialPrivacy.Error
import DifferentialPrivacy.Metric

set_option autoImplicit false

/-!
Transformations: deterministic, stable steps. The metrics are part of a step's type, and the domains
are values that are compared when steps are put together.
-/

namespace DifferentialPrivacy

/-- Runs a function between two domains: the argument has to be a member of the first, and what
    comes out a member of the second. -/
def invokeBetween (input output : Domain) (function : Value → Result Value) (x : Value) :
    Result Value :=
  if input.contains x then do
    let y ← function x
    if output.contains y then .ok y else .error (.failedFunction (.output output))
  else .error (.domainMismatch (.argument input))

def checkLink (role : String) (expected found : Domain) : Result Unit :=
  if found.eq expected then .ok () else .error (.domainMismatch (.link ⟨role, expected, found⟩))

def intermediateDomain : String := "intermediate domain"

structure Transformation (m m' : Metric) where
  inputDomain : Domain
  outputDomain : Domain
  function : Value → Result Value
  /-- Bounds the distance of two outputs by that of the inputs. -/
  stabilityMap : m.Distance → Result m'.Distance

namespace Transformation

variable {m m' m'' : Metric}

def invoke (t : Transformation m m') (x : Value) : Result Value :=
  invokeBetween t.inputDomain t.outputDomain t.function x

/-- The distance within which outputs of inputs at most `d` apart are. -/
def map (t : Transformation m m') (d : m.Distance) : Result m'.Distance := do
  m.distanceType.checkDistance d
  t.stabilityMap d

/-- Whether inputs at most `d` apart are sure to land at most `d'` apart. -/
def check (t : Transformation m m') (d : m.Distance) (d' : m'.Distance) : Result Bool := do
  return m'.distanceType.le (← t.map d) d'

def descriptor (t : Transformation m m') : TransformationDescriptor where
  inputDomain := t.inputDomain.descriptor
  outputDomain := t.outputDomain.descriptor
  inputMetric := m.descriptor
  outputMetric := m'.descriptor

/-- The step that returns its input, at the same distance. -/
def identity (caps : Capabilities) (domain : Domain) (m : Metric) :
    Result (Transformation m m) := do
  caps.require [.contrib]
  return {
    inputDomain := domain
    outputDomain := domain
    function := .ok
    stabilityMap := .ok }

/-- Multiplies a distance, taken to the type of the factor, by that factor. The product is the plain
    one, which is not made into an error where it overflows. -/
def scaleBy (m m' : Metric) (c : m'.Distance) (d : m.Distance) : Result m'.Distance := do
  m'.distanceType.mul (← m.distanceType.cast m'.distanceType d) c

def chain (caps : Capabilities) (outer : Transformation m' m'') (inner : Transformation m m') :
    Result (Transformation m m'') := do
  caps.require [.contrib]
  checkLink intermediateDomain outer.inputDomain inner.outputDomain
  return {
    inputDomain := inner.inputDomain
    outputDomain := outer.outputDomain
    function := fun x => do outer.function (← inner.function x)
    stabilityMap := fun d => do outer.stabilityMap (← inner.stabilityMap d) }

/-- A step whose function and map the caller vouches for. -/
def supplied (caps : Capabilities) (inputDomain outputDomain : Domain)
    (function : Value → Result Value) (stabilityMap : m.Distance → Result m'.Distance) :
    Result (Transformation m m') := do
  caps.require [.contrib, .honestButCurious]
  return { inputDomain, outputDomain, function, stabilityMap }

end Transformation
end DifferentialPrivacy
