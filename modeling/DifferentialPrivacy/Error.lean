import DifferentialPrivacy.Capability
import DifferentialPrivacy.Domain

set_option autoImplicit false

/-!
What can go wrong. `Error` has one constructor for each kind of failure, which holds its cause;
`Error.message` gives the wording.
-/

namespace DifferentialPrivacy

/-- A source of entropy that cannot deliver. -/
inductive EntropyFault
  | platform (reason : String)
deriving DecidableEq, Repr

def EntropyFault.message : EntropyFault → String
  | platform reason => "entropy platform failure: " ++ reason

/-- Two domains that had to be equal and are not. -/
structure LinkMismatch where
  /-- What the two domains were meant to be. -/
  role : String
  expected : Domain
  found : Domain

/-- Both domains on lines of their own. When they print the same, that is said. -/
def LinkMismatch.message (m : LinkMismatch) : String :=
  m.role ++ " mismatch\n    expected " ++ m.expected.text ++ "\n    found    " ++ m.found.text
    ++ if m.expected.text = m.found.text then
        "\n    both print the same, so they differ in a parameter that is not shown"
      else ""

inductive DomainFault
  | argument (domain : Domain)
  | link (mismatch : LinkMismatch)

def DomainFault.message : DomainFault → String
  | argument d => "argument is not a member of " ++ d.text
  | link m => m.message

/-- Faults in the parameters that a step is built from. -/
inductive ParameterFault
  | nullBounds
  | reversedBounds (lower upper : Number)
  | mixedSigns (lower upper : Number)
  | magnitude (bound : Number)
  | range (lower upper : Number)
  | notPositive (name : String) (value : Number)
  | negativeScale (scale : Number)
  | threshold (value : Number)
  | delta (value : Number)
  | probability (value : Number) (categories : Nat)
  | tooFewCategories
  | population (population sample : Nat)
  | noSampleSize
deriving DecidableEq

def ParameterFault.message : ParameterFault → String
  | nullBounds => "bounds must not be null"
  | reversedBounds l u => "lower bound " ++ l.text ++ " may not exceed upper bound " ++ u.text
  | mixedSigns l u => "bounds (" ++ l.text ++ ", " ++ u.text ++ ") must share one sign"
  | magnitude b => "|" ++ b.text ++ "| is not representable"
  | range l u => "range " ++ u.text ++ " - " ++ l.text ++ " overflows"
  | notPositive name v => name ++ " must be finite and positive, got " ++ v.text
  | negativeScale s => "scale (" ++ s.text ++ ") must be finite and non-negative"
  | threshold v => "threshold (" ++ v.text ++ ") must be finite"
  | delta v => "delta (" ++ v.text ++ ") must be in (0, 1)"
  | probability p n =>
    "probability (" ++ p.text ++ ") must be within [1/" ++ toString n ++ ", 1)"
  | tooFewCategories => "at least two categories are required"
  | population p n =>
    "population size (" ++ toString p ++ ") must be positive and at least the sample size ("
      ++ toString n ++ ")"
  | noSampleSize => "the input domain does not prescribe a sample size"

/-- Distances and deltas at which a map has no value. -/
inductive MapFault
  | distance (d : Number)
  | overflow (factor sensitivity : Number)
  | delta (value : Number)
  | rho (value : Number)
  | thresholdBelowDistance (threshold distance : Number)
  | deltaBelowTail (delta required : Number)
  | tightened (fixed delta : Number)
  /-- Said by a map that the caller supplied. -/
  | supplied (text : String)
deriving DecidableEq

def MapFault.message : MapFault → String
  | distance d => "distance " ++ d.text ++ " must be non-negative"
  | overflow a b => a.text ++ " * " ++ b.text ++ " overflows the output type"
  | delta v => "delta (" ++ v.text ++ ") must be in (0, 1)"
  | rho v => "rho (" ++ v.text ++ ") must be non-negative"
  | thresholdBelowDistance t d =>
    "threshold (" ++ t.text ++ ") must be at least d_in (" ++ d.text ++ ")"
  | deltaBelowTail d r =>
    "delta (" ++ d.text ++ ") is below the " ++ r.text ++ " this threshold supports"
  | tightened fixed d => "cannot tighten a fixed delta of " ++ fixed.text ++ " to " ++ d.text
  | supplied text => text

/-- Distributions with a parameter outside their range. -/
inductive DistributionFault
  | bernoulli (probability : Binary .binary64)
  | laplace (scale : Binary .binary64)
  | gaussian (scale : Binary .binary64)
  | geometric (probability : Binary .binary64)
  | discreteLaplace (scale : Binary .binary64)
deriving DecidableEq, Repr

def DistributionFault.message : DistributionFault → String
  | bernoulli p =>
    "bernoulli(" ++ p.plainText ++ "): p is outside [0, 1] in Bernoulli distribution"
  | laplace s =>
    "laplace(" ++ s.plainText ++ "): lambda is negative or NaN in exponential distribution"
  | gaussian s =>
    "gaussian(" ++ s.plainText
      ++ "): variation parameter is non-finite in (log)normal distribution"
  | geometric p =>
    "geometric(" ++ p.plainText
      ++ "): p is NaN or outside the interval [0, 1] in geometric distribution"
  | discreteLaplace s => "discrete laplace scale " ++ s.plainText ++ " is negative"

inductive FunctionFault
  | output (domain : Domain)
  | distribution (fault : DistributionFault)
  /-- Rejection sampling that met no acceptable draw. -/
  | noDrawAccepted
  /-- Said by a function that the caller supplied. -/
  | supplied (text : String)

def FunctionFault.message : FunctionFault → String
  | output d => "output is not a member of " ++ d.text
  | distribution f => f.message
  | noDrawAccepted => "no draw was accepted"
  | supplied text => text

inductive CastFault
  | number (value : Number) (target : NumType)
  | erased (expected found : ValueType)
deriving DecidableEq

def CastFault.message : CastFault → String
  | number v t => v.text ++ " is not representable as " ++ t.name
  | erased expected found => "expected " ++ expected.name ++ " but found " ++ found.name

/-- What the language itself stops a program at. -/
inductive Panic
  | multiplication
deriving DecidableEq, Repr

def Panic.message : Panic → String
  | multiplication => "attempt to multiply with overflow"

inductive Error
  | capabilityDisabled (c : Capability)
  | domainMismatch (fault : DomainFault)
  | invalidParameter (fault : ParameterFault)
  | undefinedMap (fault : MapFault)
  | emptyComposition
  | failedFunction (fault : FunctionFault)
  | failedCast (fault : CastFault)
  | entropy (fault : EntropyFault)
  /-- A stop of the program. Nothing catches it, so it takes the way of an error that is returned. -/
  | panic (reason : Panic)

def Error.message : Error → String
  | capabilityDisabled c => "capability `" ++ c.name ++ "` is not enabled"
  | domainMismatch f => "domain mismatch: " ++ f.message
  | invalidParameter f => "invalid parameter: " ++ f.message
  | undefinedMap f => "undefined map evaluation: " ++ f.message
  | emptyComposition => "composition requires at least one measurement"
  | failedFunction f => "function failed: " ++ f.message
  | failedCast f => "numeric cast failed: " ++ f.message
  | entropy f => f.message
  | panic p => p.message

abbrev Result (α : Type) := Except Error α

/-- Goes on only if every required capability is in the set; the first missing one is the error. -/
def Capabilities.require (s : Capabilities) (required : List Capability) : Result Unit :=
  match s.missing? required with
  | some c => .error (.capabilityDisabled c)
  | .none => .ok ()

namespace NumType

def toNumber (t : NumType) (x : t.Carrier) : Number := ⟨t, x⟩

/-- The same number in another type, or the cast that failed. -/
def cast (s t : NumType) (x : s.Carrier) : Result t.Carrier :=
  match s.convert? t x with
  | some y => .ok y
  | none => .error (.failedCast (.number ⟨s, x⟩ t))

/-- The plain product. One of integers that their type cannot hold stops the program. -/
def mul : (t : NumType) → t.Carrier → t.Carrier → Result t.Carrier
  | int _, x, y =>
    match x.checkedMul? y with
    | some z => .ok z
    | none => .error (.panic .multiplication)
  | float _, x, y => .ok (x * y)

/-- Maps are defined on numbers that are not negative. -/
def checkDistance (t : NumType) (d : t.Carrier) : Result Unit :=
  if t.isNull d || t.lt d t.zero then .error (.undefinedMap (.distance ⟨t, d⟩)) else .ok ()

end NumType

def Binary.checkPositive {f : Format} (name : String) (x : Binary f) : Result Unit :=
  if x.isFinite && zero.lt x then .ok ()
  else .error (.invalidParameter (.notPositive name x.toNumber))

/-- The closed interval between two bounds. -/
def Interval.ofBounds (t : NumType) (lower upper : t.Carrier) : Result (Interval t) :=
  if t.isNull lower || t.isNull upper then .error (.invalidParameter .nullBounds)
  else if h : t.le lower upper = true then .ok ⟨lower, upper, h⟩
  else .error (.invalidParameter (.reversedBounds ⟨t, lower⟩ ⟨t, upper⟩))

end DifferentialPrivacy
