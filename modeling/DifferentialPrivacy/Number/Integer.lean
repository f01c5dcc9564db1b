import DifferentialPrivacy.Number.Power

set_option autoImplicit false

/-!
The fixed-width integer types, and the integers that each one can hold.
-/

namespace DifferentialPrivacy

/-- `isize` and `usize` are as wide as `i64` and `u64`, but are types of their own. -/
inductive IntType
  | i8 | i16 | i32 | i64 | isize
  | u8 | u16 | u32 | u64 | usize
deriving DecidableEq, Repr

namespace IntType

def name : IntType → String
  | i8 => "i8"
  | i16 => "i16"
  | i32 => "i32"
  | i64 => "i64"
  | isize => "isize"
  | u8 => "u8"
  | u16 => "u16"
  | u32 => "u32"
  | u64 => "u64"
  | usize => "usize"

def all : List IntType := [i8, i16, i32, i64, isize, u8, u16, u32, u64, usize]

def ofName? (s : String) : Option IntType := all.find? fun t => t.name = s

def bits : IntType → Nat
  | i8 | u8 => 8
  | i16 | u16 => 16
  | i32 | u32 => 32
  | i64 | isize | u64 | usize => 64

def isSigned : IntType → Bool
  | i8 | i16 | i32 | i64 | isize => true
  | u8 | u16 | u32 | u64 | usize => false

def min (t : IntType) : Int := if t.isSigned then -twoPow (t.bits - 1) else 0

def max (t : IntType) : Int := if t.isSigned then twoPow (t.bits - 1) - 1 else twoPow t.bits - 1

theorem min_le_zero (t : IntType) : t.min ≤ 0 := by cases t <;> decide

theorem zero_le_max (t : IntType) : 0 ≤ t.max := by cases t <;> decide

theorem one_le_max (t : IntType) : 1 ≤ t.max := by cases t <;> decide

end IntType

@[ext]
structure Integer (t : IntType) where
  val : Int
  min_le : t.min ≤ val
  le_max : val ≤ t.max
deriving DecidableEq, Repr

namespace Integer

variable {t : IntType}

def zero : Integer t := ⟨0, t.min_le_zero, t.zero_le_max⟩

def one : Integer t := ⟨1, Int.le_trans t.min_le_zero (by decide), t.one_le_max⟩

def max : Integer t := ⟨t.max, Int.le_trans t.min_le_zero t.zero_le_max, Int.le_refl _⟩

def least : Integer t := ⟨t.min, Int.le_refl _, Int.le_trans t.min_le_zero t.zero_le_max⟩

/-- `n`, if the type can hold it. -/
def ofInt? (t : IntType) (n : Int) : Option (Integer t) :=
  if h : t.min ≤ n ∧ n ≤ t.max then some ⟨n, h.1, h.2⟩ else none

/-- The integer of the type nearest to `n`. -/
def clamp (t : IntType) (n : Int) : Integer t :=
  if h : n < t.min then least
  else if h' : t.max < n then max
  else ⟨n, Int.not_lt.mp h, Int.not_lt.mp h'⟩

def saturatingAdd (x y : Integer t) : Integer t := clamp t (x.val + y.val)

def saturatingSub (x y : Integer t) : Integer t := clamp t (x.val - y.val)

def checkedSub? (x y : Integer t) : Option (Integer t) := ofInt? t (x.val - y.val)

def checkedMul? (x y : Integer t) : Option (Integer t) := ofInt? t (x.val * y.val)

end Integer
end DifferentialPrivacy
