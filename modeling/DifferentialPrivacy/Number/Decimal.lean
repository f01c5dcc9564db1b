import DifferentialPrivacy.Number.Arithmetic

set_option autoImplicit false

/-!
The shortest decimal that reads back as a given value of its format, the two ways of writing it, and
the decimal that a text writes.
-/

namespace DifferentialPrivacy

/-- The decimal `d₁.d₂d₃… · 10 ^ exponent`, where `d₁d₂d₃…` are the digits of `digits`. -/
structure Decimal where
  digits : Nat
  exponent : Int
deriving DecidableEq, Repr

namespace Decimal

def trim (digits : Nat) : Nat :=
  if h : digits ≠ 0 ∧ digits % 10 = 0 then trim (digits / 10) else digits
termination_by digits
decreasing_by omega

/-- `a · 10 ^ e ≤ b`, for `e` of either sign. -/
def scaledLe (a : Nat) (e : Int) (b : Nat) : Bool :=
  if e < 0 then a ≤ b * tenPow (-e).toNat else a * tenPow e.toNat ≤ b

/-- The largest `e`, of `start` and the `steps` after it, with `den · 10 ^ e ≤ num`. -/
def climb (num den : Nat) : Nat → Int → Int
  | 0, e => e
  | steps + 1, e => if scaledLe den (e + 1) num then climb num den steps (e + 1) else e

/-- The `e` with `10 ^ e ≤ num / den < 10 ^ (e + 1)`, for a positive ratio. The binary logarithm
    gives it up to one or two, and the few powers of ten next to it decide. -/
def leadingExponent (num den : Nat) : Int :=
  climb num den 5 (((num.log2 : Int) - den.log2) * 1233 / 4096 - 2)

/-- An interval of ratios over one denominator, with the point that it is drawn around. -/
structure Window where
  lower : Nat
  value : Nat
  upper : Nat
  den : Nat
  /-- Whether the two ends belong to the interval. -/
  closed : Bool

namespace Window

/-- Whether `n · 10 ^ e` lies in the window. -/
def contains (w : Window) (n : Nat) (e : Int) : Bool :=
  let (num, scale) :=
    if e < 0 then (n * w.den, tenPow (-e).toNat) else (n * w.den * tenPow e.toNat, 1)
  if w.closed then w.lower * scale ≤ num && num ≤ w.upper * scale
  else w.lower * scale < num && num < w.upper * scale

/-- The multiples of `10 ^ e` on either side of the value, kept if in the window: of two the nearer
    one, and the upper one of two equally near. -/
def onGrid? (w : Window) (e : Int) : Option Nat :=
  let (num, den) :=
    if e < 0 then (w.value * tenPow (-e).toNat, w.den) else (w.value, w.den * tenPow e.toNat)
  let below := num / den
  match w.contains below e, w.contains (below + 1) e with
  | false, false => none
  | true, false => some below
  | false, true => some (below + 1)
  | true, true => some (if 2 * (num - below * den) < den then below else below + 1)

/-- The coarsest of the next `fuel` decimal grids, the first of which is that of `10 ^ e`, on which
    the window holds a neighbour of its value. -/
def coarsest? (w : Window) : Nat → Int → Option (Nat × Int)
  | 0, _ => none
  | fuel + 1, e =>
    match w.onGrid? e with
    | some n => some (n, e)
    | none => w.coarsest? fuel (e - 1)

end Window

/-- The ratios that round to the finite position `p`, in units: they reach half of the way to the
    positions next to it, and an even position takes the ends as well. -/
def window (f : Format) (p : Nat) : Window where
  lower := f.units (p - 1) + f.units p
  value := 2 * f.units p
  upper := f.units p + f.units (p + 1)
  den := twoPow (f.unitBits + 1)
  closed := p % 2 = 0

/-- The decimal of fewest digits that reads back as the finite position `p`, and among those the one
    nearest to it. Seventeen digits are always enough. -/
def shortest (f : Format) (p : Nat) : Decimal :=
  if p = 0 then ⟨0, 0⟩
  else
    let w := window f p
    match w.coarsest? 17 (leadingExponent w.value w.den) with
    | none => ⟨0, 0⟩
    | some (n, e) => ⟨trim n, e + (toString n).length - 1⟩

/-- The digits with the point in its place. At least `places` digits follow the point, and without
    any there is no point. -/
def positional (d : Decimal) (places : Nat) : String :=
  let digits := toString d.digits
  let whole := d.exponent + 1
  let (front, back) :=
    if whole ≤ 0 then ("0", "".pushn '0' (-whole).toNat ++ digits)
    else if digits.length ≤ whole.toNat then
      (digits.pushn '0' (whole.toNat - digits.length), "")
    else ((digits.take whole.toNat).toString, (digits.drop whole.toNat).toString)
  let back := back.pushn '0' (places - back.length)
  if back.isEmpty then front else front ++ "." ++ back

/-- One digit before the point, if there is one, and the power of ten after an `e`. -/
def scientific (d : Decimal) : String :=
  let digits := toString d.digits
  let back := (digits.drop 1).toString
  (digits.take 1).toString ++ (if back.isEmpty then "" else "." ++ back) ++ "e"
    ++ toString d.exponent

/-! ### Reading -/

/-- The number that decimal digits write. -/
def ofDigits (cs : List Char) : Nat := cs.foldl (fun n c => n * 10 + (c.toNat - '0'.toNat)) 0

def skipSign : List Char → List Char
  | '+' :: rest | '-' :: rest => rest
  | cs => cs

/-- The whole number that digits write after a sign or without one. -/
def ofSignedDigits (cs : List Char) : Int :=
  if cs.head? = some '-' then -ofDigits (skipSign cs) else ofDigits (skipSign cs)

/-- The magnitude that a text writes with digits, perhaps a point among them, and perhaps an
    exponent. The digits make a whole number once the point is taken out. -/
def ofText (text : List Char) : Decimal :=
  let significand := text.takeWhile fun c => c ≠ 'e' && c ≠ 'E'
  let fraction := (significand.dropWhile (· ≠ '.')).drop 1
  let digits := ofDigits (skipSign (significand.filter (· ≠ '.')))
  let exponent := ofSignedDigits ((text.drop significand.length).drop 1) - fraction.length
  ⟨digits, exponent + (toString digits).length - 1⟩

/-- Whether a decimal is too large for a format; no format reaches `10 ^ 400`. -/
def overflows (f : Format) (d : Decimal) : Bool :=
  let exponent := d.exponent + 1 - (toString d.digits).length
  d.digits ≠ 0 && 0 ≤ d.exponent &&
    (400 ≤ d.exponent ||
      f.nearest (d.digits * tenPow exponent.toNat * twoPow f.unitBits)
        (tenPow (-exponent).toNat) = f.infinity)

end Decimal

namespace Binary

variable {f : Format}

/-- The text of a value, given that of a finite magnitude. -/
def textBy (magnitude : Nat → String) : Binary f → String
  | nan => "NaN"
  | signed negative p _ =>
    (if negative then "-" else "") ++ if p = f.infinity then "inf" else magnitude p

/-- The form used in messages about parameters: a point always, and a power of ten for magnitudes
    below `10 ^ (-4)` or from `10 ^ 16` on. -/
def text (x : Binary f) : String :=
  x.textBy fun p =>
    let d := Decimal.shortest f p
    if p ≠ 0 ∧ (d.exponent < -4 ∨ 16 ≤ d.exponent) then d.scientific else d.positional 1

/-- The form used in messages about samplers: all digits written out, a point only where needed. -/
def plainText (x : Binary f) : String :=
  x.textBy fun p => (Decimal.shortest f p).positional 0

end Binary
end DifferentialPrivacy
