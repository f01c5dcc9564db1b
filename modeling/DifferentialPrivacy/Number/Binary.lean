import DifferentialPrivacy.Number.Format

set_option autoImplicit false

/-!
The values of a binary format: a sign and a position on the line of magnitudes, or the one
not-a-number. Encodings of not-a-number are not told apart.
-/

namespace DifferentialPrivacy

inductive Binary (f : Format)
  | nan
  | signed (negative : Bool) (position : Nat) (le : position ≤ f.infinity)
deriving DecidableEq, Repr

namespace Binary

variable {f : Format}

def zero : Binary f := .signed false 0 f.zero_le_infinity

def one : Binary f := .signed false f.one f.one_le_infinity

def infinity : Binary f := .signed false f.infinity f.infinity_le

def ofBits (f : Format) (bits : Nat) : Binary f :=
  let position := bits % twoPow f.magnitudeBits
  if h : position ≤ f.infinity then .signed (bits / twoPow f.magnitudeBits % 2 = 1) position h
  else .nan

/-- The encoding of a value; not-a-number is written as the positive quiet one. -/
def toBits : Binary f → Nat
  | nan => f.infinity + twoPow (f.fractionBits - 1)
  | signed negative position _ => (if negative then twoPow f.magnitudeBits else 0) + position

def isNan : Binary f → Bool
  | nan => true
  | signed .. => false

def isFinite : Binary f → Bool
  | nan => false
  | signed _ position _ => position < f.infinity

def isInfinite : Binary f → Bool
  | nan => false
  | signed _ position _ => position = f.infinity

def isZero : Binary f → Bool
  | nan => false
  | signed _ position _ => position = 0

def neg : Binary f → Binary f
  | nan => nan
  | signed negative position le => signed (!negative) position le

instance : Neg (Binary f) := ⟨neg⟩

/-- The position on the whole float line, on which both zeros are `0`. -/
def ordinal? : Binary f → Option Int
  | nan => none
  | signed negative position _ => some (if negative then -position else position)

/-- The comparisons are those of the float line; not-a-number compares with nothing. -/
def lt (x y : Binary f) : Bool :=
  match x.ordinal?, y.ordinal? with
  | some a, some b => a < b
  | _, _ => false

def le (x y : Binary f) : Bool :=
  match x.ordinal?, y.ordinal? with
  | some a, some b => a ≤ b
  | _, _ => false

def eq (x y : Binary f) : Bool :=
  match x.ordinal?, y.ordinal? with
  | some a, some b => a = b
  | _, _ => false

/-- The exact value of a finite number, in units. -/
def units : Binary f → Int
  | nan => 0
  | signed negative position _ => if negative then -(f.units position) else f.units position

end Binary
end DifferentialPrivacy
