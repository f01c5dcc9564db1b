import DifferentialPrivacy.Number.Decimal
import DifferentialPrivacy.Number.Integer

set_option autoImplicit false

/-!
The numeric types, their elements, and conversion between them.
-/

namespace DifferentialPrivacy

inductive NumType
  | int (t : IntType)
  | float (f : Format)
deriving DecidableEq, Repr

namespace NumType

def name : NumType → String
  | int t => t.name
  | float f => f.name

def ofName? (s : String) : Option NumType :=
  ((Format.ofName? s).map float).or ((IntType.ofName? s).map int)

abbrev Carrier : NumType → Type
  | int t => Integer t
  | float f => Binary f

instance (t : NumType) : DecidableEq t.Carrier :=
  match t with
  | int _ => inferInstance
  | float _ => inferInstance

def zero : (t : NumType) → t.Carrier
  | int _ => Integer.zero
  | float _ => Binary.zero

def one : (t : NumType) → t.Carrier
  | int _ => Integer.one
  | float _ => Binary.one

def max : (t : NumType) → t.Carrier
  | int _ => Integer.max
  | float f => Binary.signed false (f.infinity - 1) (Nat.sub_le _ _)

/-- Only not-a-number is null. -/
def isNull : (t : NumType) → t.Carrier → Bool
  | int _, _ => false
  | float _, x => x.isNan

def lt : (t : NumType) → t.Carrier → t.Carrier → Bool
  | int _, x, y => x.val < y.val
  | float _, x, y => x.lt y

def le : (t : NumType) → t.Carrier → t.Carrier → Bool
  | int _, x, y => x.val ≤ y.val
  | float _, x, y => x.le y

/-- Equality as numbers: the two zeros of a format are equal, and not-a-number equals nothing. -/
def eq : (t : NumType) → t.Carrier → t.Carrier → Bool
  | int _, x, y => x.val = y.val
  | float _, x, y => x.eq y

def text : (t : NumType) → t.Carrier → String
  | int _, x => toString x.val
  | float _, x => x.text

/-- An integer as an element of a numeric type: exact in an integer type that can hold it, rounded
    to nearest in a format. -/
def ofInt? : (t : NumType) → Int → Option t.Carrier
  | int t, n => Integer.ofInt? t n
  | float f, n => some (.ofInt f n)

/-- The same number in another type. Integers must fit, floats lose their fraction on the way to an
    integer type, and every number has a nearest value in a format. -/
def convert? : (s t : NumType) → s.Carrier → Option t.Carrier
  | int _, t, x => t.ofInt? x.val
  | float _, int t, x => x.truncate?.bind (Integer.ofInt? t)
  | float _, float g, x => some (x.convert g)

end NumType

structure Number where
  type : NumType
  val : type.Carrier

namespace Number

instance : DecidableEq Number := fun ⟨s, x⟩ ⟨t, y⟩ =>
  if h : s = t then
    match t, h, y with
    | _, rfl, y => if h' : x = y then isTrue (by rw [h']) else isFalse (by simpa using h')
  else isFalse fun e => h (congrArg Number.type e)

def text (x : Number) : String := x.type.text x.val

end Number

def Binary.toNumber {f : Format} (x : Binary f) : Number := ⟨.float f, x⟩

def Integer.toNumber {t : IntType} (x : Integer t) : Number := ⟨.int t, x⟩

end DifferentialPrivacy
