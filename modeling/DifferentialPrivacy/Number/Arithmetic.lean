import DifferentialPrivacy.Number.Binary

set_option autoImplicit false

/-!
Arithmetic on the values of a format. Each operation takes the exact result as a ratio of units and
rounds it once, to the nearest value with ties to even; the cases in front of the rounding are those
of infinities, not-a-number and the sign of zero.
-/

namespace DifferentialPrivacy

def floorSqrt (n : Nat) : Nat :=
  if h : n = 0 then 0
  else
    let root := 2 * floorSqrt (n / 4)
    if (root + 1) * (root + 1) ≤ n then root + 1 else root
termination_by n
decreasing_by omega

namespace Binary

variable {f g : Format}

/-- The value nearest to `num / den` units. -/
def ofRatio (f : Format) (negative : Bool) (num den : Nat) : Binary f :=
  .signed negative (f.nearest num den) (f.nearestBy_le _ _)

/-- As `ofRatio`, for a signed number of units; an exact zero takes the sign `zeroSign`. -/
def ofUnits (f : Format) (zeroSign : Bool) (num : Int) (den : Nat) : Binary f :=
  if num = 0 then .signed zeroSign 0 f.zero_le_infinity
  else ofRatio f (num < 0) num.natAbs den

def ofInt (f : Format) (n : Int) : Binary f :=
  ofUnits f false (n * twoPow f.unitBits) 1

def add (x y : Binary f) : Binary f :=
  match x, y with
  | nan, _ | _, nan => nan
  | signed nx px _, signed ny py _ =>
    if px = f.infinity then
      if py = f.infinity ∧ nx ≠ ny then nan else x
    else if py = f.infinity then y
    else ofUnits f (nx && ny) (x.units + y.units) 1

def sub (x y : Binary f) : Binary f := x.add (-y)

def mul (x y : Binary f) : Binary f :=
  match x, y with
  | nan, _ | _, nan => nan
  | signed nx px _, signed ny py _ =>
    let negative := nx ^^ ny
    if px = f.infinity ∨ py = f.infinity then
      if px = 0 ∨ py = 0 then nan else .signed negative f.infinity f.infinity_le
    else ofRatio f negative (f.units px * f.units py) (twoPow f.unitBits)

def div (x y : Binary f) : Binary f :=
  match x, y with
  | nan, _ | _, nan => nan
  | signed nx px _, signed ny py _ =>
    let negative := nx ^^ ny
    if px = f.infinity then
      if py = f.infinity then nan else .signed negative f.infinity f.infinity_le
    else if py = f.infinity then .signed negative 0 f.zero_le_infinity
    else if py = 0 then
      if px = 0 then nan else .signed negative f.infinity f.infinity_le
    else ofRatio f negative (f.units px * twoPow f.unitBits) (f.units py)

def mulAdd (x y z : Binary f) : Binary f :=
  match x, y, z with
  | nan, _, _ | _, nan, _ | _, _, nan => nan
  | signed nx px _, signed ny py _, signed nz pz _ =>
    let negative := nx ^^ ny
    if px = f.infinity ∨ py = f.infinity then
      if px = 0 ∨ py = 0 ∨ (pz = f.infinity ∧ nz ≠ negative) then nan
      else .signed negative f.infinity f.infinity_le
    else if pz = f.infinity then z
    else
      ofUnits f (negative && nz) (x.units * y.units + z.units * twoPow f.unitBits)
        (twoPow f.unitBits)

/-- The square root of a negative number other than zero is not a number. -/
def sqrt (x : Binary f) : Binary f :=
  match x with
  | nan => nan
  | signed negative p _ =>
    if p = 0 then x
    else if negative then nan
    else if p = f.infinity then x
    else
      let square := f.units p * twoPow f.unitBits
      .signed false (f.nearestBy (floorSqrt square) fun s => compare (4 * square) (s * s))
        (f.nearestBy_le _ _)

instance : Add (Binary f) := ⟨add⟩
instance : Sub (Binary f) := ⟨sub⟩
instance : Mul (Binary f) := ⟨mul⟩
instance : Div (Binary f) := ⟨div⟩

def two : Binary f := one + one

def abs : Binary f → Binary f
  | nan => nan
  | signed _ p le => signed false p le

/-- The larger of two values; a number wins over not-a-number. -/
def max (x y : Binary f) : Binary f :=
  if x.isNan then y else if y.isNan then x else if x.lt y then y else x

/-- The nearest value of another format. -/
def convert (g : Format) : Binary f → Binary g
  | nan => nan
  | signed negative p _ =>
    if p = f.infinity then .signed negative g.infinity g.infinity_le
    else ofRatio g negative (f.units p * twoPow g.unitBits) (twoPow f.unitBits)

/-- The integer part of a finite value, rounded toward zero. -/
def truncate? : Binary f → Option Int
  | nan => none
  | signed negative p _ =>
    if p = f.infinity then none
    else
      let whole : Int := f.units p / twoPow f.unitBits
      some (if negative then -whole else whole)

def floor (x : Binary f) : Binary f :=
  match x with
  | nan => nan
  | signed negative p _ =>
    if p = f.infinity ∨ p = 0 then x
    else ofUnits f negative (x.units / twoPow f.unitBits * twoPow f.unitBits) 1

/-- `x` raised to the power `n` by repeated squaring from the lowest bit of `n` on, every product
    rounded. -/
def powNat (x : Binary f) (n : Nat) : Binary f :=
  go x n one
where
  go (base : Binary f) (n : Nat) (acc : Binary f) : Binary f :=
    let acc := if n % 2 = 1 then acc * base else acc
    if n / 2 = 0 then acc else go (base * base) (n / 2) acc
  termination_by n

end Binary
end DifferentialPrivacy
