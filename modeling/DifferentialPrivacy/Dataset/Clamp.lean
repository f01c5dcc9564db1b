import DifferentialPrivacy.Pipeline.Transformation

set_option autoImplicit false

/-!
Clamping: every record is moved to the nearest point of an interval.
-/

namespace DifferentialPrivacy

namespace Interval

variable {t : NumType}

/-- The point of the interval nearest to `x`; not-a-number stays as it is. -/
def nearest (i : Interval t) (x : t.Carrier) : t.Carrier :=
  if t.lt x i.lower then i.lower else if t.lt i.upper x then i.upper else x

def nearestValue (i : Interval t) : Value → Value
  | .num s x => if h : s = t then .num t (i.nearest (h ▸ x)) else .num s x
  | v => v

end Interval

def Value.mapList (f : Value → Value) : Value → Value
  | .list xs => .list (xs.map f)
  | v => v

namespace Transformation

/-- Moves every record into `[lower, upper]`. A record-wise step keeps the symmetric distance. -/
def clamp (caps : Capabilities) (t : NumType) (lower upper : t.Carrier) :
    Result (Transformation .symmetric .symmetric) := do
  caps.require [.contrib]
  let interval ← Interval.ofBounds t lower upper
  return {
    inputDomain := .vectorOf (.num t)
    outputDomain := .vector (.bounded t interval)
    function := fun v => .ok (v.mapList interval.nearestValue)
    stabilityMap := .ok }

end Transformation
end DifferentialPrivacy
