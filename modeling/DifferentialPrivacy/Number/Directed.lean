import DifferentialPrivacy.Number.Arithmetic

set_option autoImplicit false

/-!
Steps along the float line and arithmetic rounded toward positive infinity, so that a bound computed
with it is meant never to be below the exact one. The basic operations look at the error of the
nearest result and step up only when that error says that the result is too small. The errors are
themselves computed in the format: that of a sum can be lost to overflow, and those of products and
quotients to underflow.
-/

namespace DifferentialPrivacy.Binary

variable {f : Format}

/-- The smallest value strictly above `x`. Not-a-number and positive infinity stay as they are. -/
def nextUp : Binary f → Binary f
  | nan => nan
  | signed negative p le =>
    if p = 0 then .signed false 1 f.zero_lt_infinity
    else if negative then .signed true (p - 1) (Nat.le_trans (Nat.sub_le p 1) le)
    else if h : p < f.infinity then .signed false (p + 1) h
    else .signed false p le

/-- The largest value strictly below `x`. Not-a-number and negative infinity stay as they are. -/
def nextDown (x : Binary f) : Binary f := -(nextUp (-x))

/-- What the nearest sum of `x` and `y` falls short by, computed in the format: the part of the sum
    that came from `y` and the part that came from `x` are taken from `y` and from `x`. It may fail
    to be a number where one of the parts is beyond the format, although the sum is not. -/
def sumError (x y : Binary f) : Binary f :=
  let sum := x + y
  let fromY := sum - x
  (x - (sum - fromY)) + (y - fromY)

/-- `x + y`, rounded up when the error of the nearest sum is seen to be positive. -/
def addUp (x y : Binary f) : Binary f :=
  let sum := x + y
  if sum.isFinite ∧ zero.lt (sumError x y) then sum.nextUp else sum

def subUp (x y : Binary f) : Binary f := x.addUp (-y)

def subDown (x y : Binary f) : Binary f := -(y.addUp (-x))

/-- `x * y`, rounded up when the error of the nearest product is seen to be positive. -/
def mulUp (x y : Binary f) : Binary f :=
  let product := x * y
  if product.isFinite ∧ zero.lt (mulAdd x y (-product)) then product.nextUp else product

/-- `x / y`, rounded up when the remainder of the nearest quotient has the sign of `y`. -/
def divUp (x y : Binary f) : Binary f :=
  let quotient := x / y
  let remainder := mulAdd (-quotient) y x
  if quotient.isFinite ∧ ¬remainder.eq zero ∧ zero.lt remainder = zero.lt y then quotient.nextUp
  else quotient

def divDown (x y : Binary f) : Binary f := -((-x).divUp y)

def squareUp (x : Binary f) : Binary f := x.mulUp x

end DifferentialPrivacy.Binary
