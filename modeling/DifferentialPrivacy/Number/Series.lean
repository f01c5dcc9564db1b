import DifferentialPrivacy.Number.Arithmetic

set_option autoImplicit false

/-!
`ln (1 + x)` and `e ^ x - 1`, computed with 192 bits after the point and rounded once. Both
functions stay close to `x` near zero, where the plain logarithm and exponential would lose their
digits.
-/

namespace DifferentialPrivacy.Series

/-- Bits after the point in the numbers of this module. -/
def precision : Nat := 192

def scale : Int := twoPow precision

/-- `t + t³/3 + t⁵/5 + …`, given the next power of `t` and its exponent. -/
def atanhFrom (square : Int) : Nat → Int → Int → Int
  | 0, _, _ => 0
  | terms + 1, power, n => power / n + atanhFrom square terms (power * square / scale) (n + 2)

def atanh (t : Int) : Int := atanhFrom (t * t / scale) 64 t 1

/-- `ln 2 = 2 · atanh (1/3)` -/
def lnTwo : Int := 2 * atanh (scale / 3)

/-- The logarithm of `num / 2 ^ bits`, for `0 < num`: the power of two at or below it, and the
    logarithm of the rest from `ln m = 2 · atanh ((m - 1) / (m + 1))`. -/
def ln (num bits : Nat) : Int :=
  let top := num.log2
  let m : Int := (num <<< precision) >>> top
  2 * atanh ((m - scale) * scale / (m + scale)) + ((top : Int) - bits) * lnTwo

/-- `1 + r + r²/2 + …`, given the next term and its index. -/
def expFrom (r : Int) : Nat → Int → Int → Int
  | 0, _, _ => 0
  | terms + 1, term, n => term + expFrom r terms (term * r / scale / n) (n + 1)

/-- The exponential of `x`, from that of its remainder modulo `ln 2`. -/
def exp (x : Int) : Int :=
  let k := x / lnTwo
  let rest := expFrom (x % lnTwo) 64 scale 1
  if k < 0 then rest >>> (-k).toNat else rest <<< k.toNat

end Series

namespace Binary

variable {f : Format}

/-- Values this small are the nearest ones to their own `ln (1 + x)` and `e ^ x - 1`. -/
def isTiny (x : Binary f) : Bool := x.units.natAbs < twoPow (f.unitBits - 56)

def lnOnePlus (x : Binary f) : Binary f :=
  match x with
  | nan => nan
  | signed negative p _ =>
    let sum := x.units + twoPow f.unitBits
    if p = f.infinity then (if negative then nan else x)
    else if sum < 0 then nan
    else if sum = 0 then -infinity
    else if x.isTiny then x
    else
      ofUnits f false (Series.ln sum.toNat f.unitBits * twoPow f.unitBits)
        (twoPow Series.precision)

/-- From a thousand on, the result is infinity, and minus one on the other side. -/
def expMinusOne (x : Binary f) : Binary f :=
  match x with
  | nan => nan
  | signed negative _ _ =>
    if 1000 * twoPow f.unitBits ≤ x.units.natAbs then (if negative then -one else infinity)
    else if x.isTiny then x
    else
      let power := Series.exp (x.units * Series.scale / twoPow f.unitBits)
      ofUnits f false ((power - Series.scale) * twoPow f.unitBits) (twoPow Series.precision)

end Binary
end DifferentialPrivacy
