import DifferentialPrivacy.Number.Directed

set_option autoImplicit false

/-!
Steps along the float line as steps of encodings. The magnitude of a number is the lower part of its
encoding, so one more leads away from zero and one less towards it.
-/

namespace DifferentialPrivacy

/-- A word as wide as the encodings of a format: a sign above a magnitude. -/
abbrev Encoding (f : Format) := BitVec (f.magnitudeBits + 1)

namespace Encoding

variable {f : Format}

def decode (w : Encoding f) : Binary f := Binary.ofBits f w.toNat

/-- The encoding with the other sign. -/
def negate (w : Encoding f) : Encoding f := w ^^^ BitVec.intMin _

/-- Not-a-number and positive infinity stay as they are, and both zeros lead to the first number above
    zero. -/
def nextUp (w : Encoding f) : Encoding f :=
  let x := w.decode
  if x.isNan ∨ x.eq .infinity then w
  else if x.eq .zero then 1
  else if Binary.zero.lt x then w + 1
  else w - 1

def nextDown (w : Encoding f) : Encoding f := (nextUp w.negate).negate

end Encoding
end DifferentialPrivacy
