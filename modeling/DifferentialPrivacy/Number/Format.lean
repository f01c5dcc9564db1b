import DifferentialPrivacy.Number.Power

set_option autoImplicit false

/-!
The two binary interchange formats and the line of magnitudes each one holds.

A magnitude is a position on that line: `0` is zero, every step up is the next representable value,
and `Format.infinity` is the end. `Format.units` says how far from zero a position lies, in units of
the smallest positive value, which is `2 ^ (-unitBits)`.
-/

namespace DifferentialPrivacy

inductive Format
  | binary32
  | binary64
deriving DecidableEq, Repr

namespace Format

def name : Format → String
  | binary32 => "f32"
  | binary64 => "f64"

def ofName? (s : String) : Option Format := [binary32, binary64].find? fun f => f.name = s

/-- Bits below the leading bit of a significand. -/
def fractionBits : Format → Nat
  | binary32 => 23
  | binary64 => 52

/-- Bits of an encoding below its sign bit. -/
def magnitudeBits : Format → Nat
  | binary32 => 31
  | binary64 => 63

/-- One is `2 ^ unitBits` units. -/
def unitBits : Format → Nat
  | binary32 => 149
  | binary64 => 1074

/-- The position of infinity; every smaller position is finite. -/
def infinity : Format → Nat
  | binary32 => 0x7f800000
  | binary64 => 0x7ff0000000000000

theorem zero_lt_infinity (f : Format) : 0 < f.infinity := by cases f <;> decide

theorem zero_le_infinity (f : Format) : 0 ≤ f.infinity := Nat.zero_le _

theorem infinity_le (f : Format) : f.infinity ≤ f.infinity := Nat.le_refl _

def one : Format → Nat
  | binary32 => 0x3f800000
  | binary64 => 0x3ff0000000000000

theorem one_le_infinity (f : Format) : f.one ≤ f.infinity := by cases f <;> decide

/-- The distance from zero of a position, in units. Positions below the second binade lie one unit
    apart, and the spacing doubles with every later binade. The formula goes on past the last finite
    position, where it gives the values that decide when rounding overflows. -/
def units (f : Format) (m : Nat) : Nat :=
  if m < twoPow (f.fractionBits + 1) then m
  else (twoPow f.fractionBits + m % twoPow f.fractionBits) <<< (m / twoPow f.fractionBits - 1)

/-- The last position at most `n` units from zero. -/
def floorPosition (f : Format) (n : Nat) : Nat :=
  if n < twoPow (f.fractionBits + 1) then n
  else
    let shift := n.log2 - f.fractionBits
    shift * twoPow f.fractionBits + (n >>> shift)

/-- The position nearest to an amount that lies at or above `n` and below `n + 1` units; of two
    equally near ones the even one. `twice s` compares twice that amount with `s`, so the amount
    itself need not be a whole number of units. An amount too large for the format goes to
    infinity. -/
def nearestBy (f : Format) (n : Nat) (twice : Nat → Ordering) : Nat :=
  let low := f.floorPosition n
  let chosen :=
    match twice (f.units low + f.units (low + 1)) with
    | .lt => low
    | .eq => if low % 2 = 0 then low else low + 1
    | .gt => low + 1
  min chosen f.infinity

/-- The position nearest to `num / den` units. -/
def nearest (f : Format) (num den : Nat) : Nat :=
  f.nearestBy (num / den) fun s => compare (2 * num) (s * den)

theorem nearestBy_le (f : Format) (n : Nat) (twice : Nat → Ordering) :
    f.nearestBy n twice ≤ f.infinity :=
  Nat.min_le_right _ _

end Format
end DifferentialPrivacy
