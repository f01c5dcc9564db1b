import DifferentialPrivacy.Number.Encoding
import DifferentialPrivacy.Proofs.Number.FloatLine

set_option autoImplicit false

/-!
# Encodings and their values

An encoding is a sign above an exponent above a fraction. The largest exponent is that of the infinities
and of not-a-number; the least one is that of the numbers without a leading bit; any other exponent
scales a significand with a leading bit. What an encoding stands for in this reading is the exact value
of the number that it is decoded to.
-/
namespace DifferentialPrivacy

namespace Format

variable {f : Format}

def exponentBits (f : Format) : Nat := f.magnitudeBits - f.fractionBits

/-- The exponent of one in its encoding. -/
def bias (f : Format) : Nat := twoPow (f.exponentBits - 1) - 1

theorem twoPow_magnitudeBits (f : Format) :
    twoPow f.magnitudeBits = twoPow f.fractionBits * twoPow f.exponentBits := by
  rw [← twoPow_add]
  cases f <;> rfl

theorem bias_add_fractionBits (f : Format) : f.bias + f.fractionBits = f.unitBits + 1 := by
  cases f <;> decide

theorem infinity_eq_mul (f : Format) :
    f.infinity = (twoPow f.exponentBits - 1) * twoPow f.fractionBits := by cases f <;> decide

theorem infinity_lt_twoPow (f : Format) : f.infinity < twoPow f.magnitudeBits := by
  cases f <;> decide

end Format

namespace Encoding

variable {f : Format} {w : Encoding f}

/-! ### Fields -/

/-- The bits below the sign. -/
def position (w : Encoding f) : Nat := w.toNat % twoPow f.magnitudeBits

def exponent (w : Encoding f) : Nat := w.toNat / twoPow f.fractionBits % twoPow f.exponentBits

def fraction (w : Encoding f) : Nat := w.toNat % twoPow f.fractionBits

theorem exponent_eq (w : Encoding f) : w.exponent = w.position / twoPow f.fractionBits := by
  unfold exponent position
  rw [f.twoPow_magnitudeBits, Nat.mod_mul_right_div_self]

theorem fraction_eq (w : Encoding f) : w.fraction = w.position % twoPow f.fractionBits := by
  unfold fraction position
  rw [f.twoPow_magnitudeBits, Nat.mod_mul_right_mod]

theorem position_eq (w : Encoding f) :
    w.position = w.exponent * twoPow f.fractionBits + w.fraction := by
  rw [exponent_eq, fraction_eq, Nat.div_add_mod']

theorem toNat_lt (w : Encoding f) : w.toNat < twoPow f.magnitudeBits * 2 := w.isLt

theorem msb_eq (w : Encoding f) : w.msb = decide (twoPow f.magnitudeBits ≤ w.toNat) :=
  BitVec.msb_eq_decide w

theorem toNat_eq (w : Encoding f) :
    w.toNat = (if w.msb then twoPow f.magnitudeBits else 0) + w.position := by
  have hlt := w.toNat_lt
  unfold position
  rw [msb_eq]
  split
  · rename_i h
    have hle := of_decide_eq_true h
    rw [Nat.mod_eq_sub_mod hle, Nat.mod_eq_of_lt (by omega)]
    omega
  · rename_i h
    rw [decide_eq_true_iff] at h
    rw [Nat.mod_eq_of_lt (by omega), Nat.zero_add]

/-! ### Decoding -/

theorem decode_eq (w : Encoding f) : w.decode =
    if h : w.position ≤ f.infinity then .signed w.msb w.position h else .nan := by
  have hsign : decide (w.toNat / twoPow f.magnitudeBits % 2 = 1) = w.msb := by
    have hlt : w.toNat / twoPow f.magnitudeBits < 2 := Nat.div_lt_of_lt_mul w.toNat_lt
    rw [msb_eq, decide_eq_decide, ← Nat.one_le_div_iff (twoPow_pos _)]
    generalize w.toNat / twoPow f.magnitudeBits = q at hlt ⊢
    omega
  unfold decode Binary.ofBits
  simp only [hsign]
  rfl

theorem fields_of_decode {negative : Bool} {p : Nat} {hp : p ≤ f.infinity}
    (h : w.decode = .signed negative p hp) : w.msb = negative ∧ w.position = p := by
  rw [decode_eq] at h
  split at h
  · exact Binary.signed.inj h
  · cases h

theorem decode_of_toNat {negative : Bool} {p : Nat} (hp : p ≤ f.infinity)
    (h : w.toNat = (if negative then twoPow f.magnitudeBits else 0) + p) :
    w.decode = .signed negative p hp := by
  have hlt := hp.trans_lt f.infinity_lt_twoPow
  have hmsb : w.msb = negative := by
    rw [msb_eq, h]
    cases negative with
    | false => exact decide_eq_false (by simpa using hlt)
    | true => exact decide_eq_true (Nat.le_add_right _ _)
  have hposition : w.position = p := by
    have heq := w.toNat_eq
    rw [hmsb, h] at heq
    omega
  rw [decode_eq, dif_pos (hposition ▸ hp)]
  simp only [hmsb, hposition]

theorem decode_negate (w : Encoding f) : w.negate.decode = -w.decode := by
  have hmsb : w.negate.msb = !w.msb := by
    unfold negate
    rw [BitVec.msb_xor, BitVec.msb_intMin, decide_eq_true (Nat.succ_pos _), Bool.xor_true]
  have hposition : w.negate.position = w.position := by
    have hmin : (BitVec.intMin (f.magnitudeBits + 1)).toNat = 2 ^ f.magnitudeBits :=
      BitVec.toNat_intMin_of_pos (Nat.succ_pos _)
    unfold negate position
    change _ % 2 ^ _ = _ % 2 ^ _
    rw [BitVec.toNat_xor, hmin, Nat.xor_mod_two_pow, Nat.mod_self, Nat.xor_zero]
  rw [decode_eq, decode_eq w]
  simp only [hmsb, hposition]
  split <;> rfl

theorem negate_negate (w : Encoding f) : w.negate.negate = w := by
  unfold negate
  rw [BitVec.xor_assoc, BitVec.xor_self, BitVec.xor_zero]

/-! ### Values -/

/-- The distance from zero that the exponent and the fraction of a finite number make up. -/
def magnitude (w : Encoding f) : ℚ :=
  if w.exponent = 0 then
    w.fraction / twoPow f.fractionBits * (twoPow 1 / twoPow f.bias)
  else
    (1 + w.fraction / twoPow f.fractionBits) * (twoPow w.exponent / twoPow f.bias)

/-- What an encoding stands for; not-a-number has no value. -/
noncomputable def value? (w : Encoding f) : Option EReal :=
  if w.exponent = twoPow f.exponentBits - 1 then
    if w.fraction = 0 then some (if w.msb then ⊥ else ⊤) else none
  else some ((if w.msb then -w.magnitude else w.magnitude : ℚ) : ℝ)

theorem magnitude_eq (w : Encoding f) :
    w.magnitude = (f.units w.position : ℚ) / twoPow f.unitBits := by
  have hfraction : (twoPow f.fractionBits : ℚ) ≠ 0 := Nat.cast_ne_zero.mpr (twoPow_pos _).ne'
  have hbias : (twoPow f.bias : ℚ) ≠ 0 := Nat.cast_ne_zero.mpr (twoPow_pos _).ne'
  have hscale : (twoPow f.bias * twoPow f.fractionBits : ℚ) = twoPow f.unitBits * twoPow 1 := by
    exact_mod_cast (twoPow_add _ _).symm.trans
      ((congrArg twoPow f.bias_add_fractionBits).trans (twoPow_add _ _))
  have hunit := (Binary.twoPow_unitBits_pos f).ne'
  unfold magnitude
  -- Without a leading bit a position is its own number of units; with one, the exponent scales both.
  split
  · rename_i h0
    have hlt : w.position < twoPow f.fractionBits := by
      rw [exponent_eq, Nat.div_eq_zero_iff_lt (twoPow_pos _)] at h0
      exact h0
    rw [(Format.units_of_lt hlt).1, fraction_eq, Nat.mod_eq_of_lt hlt, div_mul_div_comm,
      div_eq_div_iff (mul_ne_zero hfraction hbias) hunit, mul_comm (twoPow f.fractionBits : ℚ),
      hscale]
    ring
  · rename_i h0
    have hle : twoPow f.fractionBits ≤ w.position := by
      by_contra hlt
      rw [exponent_eq, Nat.div_eq_of_lt (Nat.not_le.mp hlt)] at h0
      exact h0 rfl
    have hexponent : w.exponent = w.position / twoPow f.fractionBits - 1 + 1 := by
      rw [← exponent_eq]
      omega
    rw [Format.units_of_le hle, Format.spacing, ← fraction_eq, hexponent, twoPow_add,
      one_add_div hfraction, div_mul_div_comm, div_eq_div_iff (mul_ne_zero hfraction hbias) hunit,
      mul_comm (twoPow f.fractionBits : ℚ) (twoPow f.bias), hscale]
    push_cast
    ring

theorem value?_eq (w : Encoding f) : w.value? = w.decode.extended? := by
  have hpos := twoPow_pos f.fractionBits
  have hexponents : w.exponent < twoPow f.exponentBits := Nat.mod_lt _ (twoPow_pos _)
  have hposition := w.position_eq
  have hinfinity := f.infinity_eq_mul
  have hfraction : w.fraction < twoPow f.fractionBits := Nat.mod_lt _ hpos
  unfold value?
  split
  · rename_i hlast
    rw [hlast, ← hinfinity] at hposition
    split
    · rename_i h0
      have hend : w.position = f.infinity := by omega
      rw [decode_eq, dif_pos hend.le]
      exact congrArg some (if_pos hend).symm
    · rename_i h0
      rw [decode_eq, dif_neg (by omega)]
      rfl
  · rename_i hlast
    have hlt : w.position < f.infinity := by
      rw [hposition, hinfinity]
      calc
        _ < (w.exponent + 1) * twoPow f.fractionBits := by rw [Nat.add_one_mul]; omega
        _ ≤ _ := Nat.mul_le_mul_right _ (by omega)
    rw [decode_eq, dif_pos hlt.le, magnitude_eq]
    unfold Binary.extended? Binary.value Binary.units
    dsimp only
    rw [if_neg hlt.ne]
    cases w.msb with
    | false => rfl
    | true => simp [neg_div]

theorem value?_eq_some_iff {v : EReal} :
    w.value? = some v ↔ ∃ n, w.decode.ordinal? = some n ∧ f.valueAt n = v := by
  rw [value?_eq, Binary.extended?_eq_some_iff]

theorem value?_eq_none_iff : w.value? = none ↔ w.decode = .nan := by
  rw [value?_eq, Binary.extended?_eq_none_iff]

theorem value?_negate (w : Encoding f) : w.negate.value? = w.value?.map (- ·) := by
  rw [value?_eq, value?_eq, decode_negate, Binary.extended?_eq, Binary.extended?_eq,
    Binary.ordinal?_neg]
  cases h : w.decode.ordinal? with
  | none => rfl
  | some n => exact congrArg some (Format.valueAt_neg (Binary.mem_ordinals h))

end Encoding
end DifferentialPrivacy
