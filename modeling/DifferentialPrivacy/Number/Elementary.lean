import DifferentialPrivacy.Number.Directed

set_option autoImplicit false

/-!
The elementary functions that privacy bounds and samplers call for. Their last digit differs between
mathematics libraries, so everything that uses them takes them as a parameter; what is added here is
rounding away from the true value by one step, with the exact cases left alone.
-/

namespace DifferentialPrivacy

/-- A library of elementary functions on the formats. -/
class Elementary where
  ln {f : Format} : Binary f → Binary f
  exp {f : Format} : Binary f → Binary f
  /-- `ln (1 + x)` -/
  lnOnePlus {f : Format} : Binary f → Binary f
  /-- `e ^ x - 1` -/
  expMinusOne {f : Format} : Binary f → Binary f
  pow : Binary .binary64 → Binary .binary64 → Binary .binary64

namespace Binary

variable {f : Format} [Elementary]

def lnUp (x : Binary f) : Binary f :=
  if x.eq one then zero else (Elementary.ln x).nextUp

def lnDown (x : Binary f) : Binary f :=
  if x.eq one then zero else (Elementary.ln x).nextDown

def lnOnePlusUp (x : Binary f) : Binary f :=
  if x.isZero then x else (Elementary.lnOnePlus x).nextUp

def expUp (x : Binary f) : Binary f :=
  if x.isZero then one else (Elementary.exp x).nextUp

def expMinusOneUp (x : Binary f) : Binary f :=
  if x.isZero then x else (Elementary.expMinusOne x).nextUp

end Binary
end DifferentialPrivacy
