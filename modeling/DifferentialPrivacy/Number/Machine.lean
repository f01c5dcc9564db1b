import DifferentialPrivacy.Number.Elementary
import DifferentialPrivacy.Number.Series

set_option autoImplicit false

/-!
The elementary functions of the machine that the program runs on.
-/

namespace DifferentialPrivacy

namespace Binary

/-- A function of the machine's own numbers, on the values of a format. -/
def onMachine (single : Float32 → Float32) (double : Float → Float) :
    {f : Format} → Binary f → Binary f
  | .binary32, x => ofBits _ (single (Float32.ofBits (UInt32.ofNat x.toBits))).toBits.toNat
  | .binary64, x => ofBits _ (double (Float.ofBits (UInt64.ofNat x.toBits))).toBits.toNat

def machinePow (x y : Binary .binary64) : Binary .binary64 :=
  let toFloat (z : Binary .binary64) := Float.ofBits (UInt64.ofNat z.toBits)
  ofBits _ ((toFloat x).pow (toFloat y)).toBits.toNat

end Binary

/-- Logarithms, exponentials and powers are the machine's. -/
@[reducible]
def Elementary.machine : Elementary where
  ln := Binary.onMachine Float32.log Float.log
  exp := Binary.onMachine Float32.exp Float.exp
  lnOnePlus := Binary.lnOnePlus
  expMinusOne := Binary.expMinusOne
  pow := Binary.machinePow

end DifferentialPrivacy
