import DifferentialPrivacy.Proofs.Number.LeastBounds

set_option autoImplicit false

/-!
# Numbers of either format as numbers of the wider one

The wider format holds every number of either one, so taking a number to it keeps its value.
-/
namespace DifferentialPrivacy

namespace Format

/-- A number has no more digits than a significand, so the wider format holds it. -/
theorem exists_units_widened (f : Format) {p : Nat} (hp : p < f.infinity) :
    ∃ q < binary64.infinity,
      binary64.units q * twoPow f.unitBits = f.units p * twoPow binary64.unitBits := by
  obtain ⟨digits, hdigits⟩ := f.spacing_dvd_units p
  have hfew : digits ≤ twoPow (binary64.fractionBits + 1) := by
    have hsucc := f.units_succ_le p
    have hlt := f.units_strictMono p.lt_succ_self
    have hbits : twoPow (f.fractionBits + 1) ≤ twoPow (binary64.fractionBits + 1) :=
      twoPow_le_twoPow (by cases f <;> decide)
    have hmul : digits * f.spacing p ≤ twoPow (f.fractionBits + 1) * f.spacing p := by
      rw [Nat.mul_comm digits, ← hdigits]
      exact hlt.le.trans hsucc
    exact (Nat.le_of_mul_le_mul_right hmul (f.spacing_pos p)).trans hbits
  obtain ⟨extra, hextra⟩ : ∃ extra, binary64.unitBits = extra + f.unitBits :=
    ⟨binary64.unitBits - f.unitBits, by cases f <;> rfl⟩
  have hplace := units_floorPosition_mul hfew (p / twoPow f.fractionBits - 1 + extra)
  have hexact : binary64.units (binary64.floorPosition
      (digits * twoPow (p / twoPow f.fractionBits - 1 + extra))) * twoPow f.unitBits =
      f.units p * twoPow binary64.unitBits := by
    rw [hplace, hdigits, hextra, twoPow_add, twoPow_add, spacing]
    ring
  refine ⟨_, ?_, hexact⟩
  have hend : f.units f.infinity * twoPow binary64.unitBits ≤
      binary64.units binary64.infinity * twoPow f.unitBits := by
    rw [units_infinity, units_infinity, ← twoPow_add, ← twoPow_add]
    exact twoPow_le_twoPow (by cases f <;> decide)
  apply binary64.units_strictMono.lt_iff_lt.mp
  apply Nat.lt_of_mul_lt_mul_right (a := twoPow f.unitBits)
  rw [hexact]
  exact (Nat.mul_lt_mul_of_pos_right (f.units_strictMono hp) (twoPow_pos _)).trans_le hend

end Format

namespace Binary
open Format (binary64)

variable {f : Format} {x : Binary f} {p : Nat}

theorem convert_at (hx : x.At p) (hp : p < f.infinity) :
    ∃ q < binary64.infinity, (x.convert binary64).At q ∧
      binary64.units q * twoPow f.unitBits = f.units p * twoPow binary64.unitBits := by
  obtain ⟨q, hq, hunits⟩ := f.exists_units_widened hp
  refine ⟨q, hq, ?_, hunits⟩
  have hnearest : binary64.nearest (f.units p * twoPow binary64.unitBits) (twoPow f.unitBits) = q := by
    rw [← hunits, Format.nearest_units (twoPow_pos _) hq.le]
  obtain ⟨negative, hle, rfl, hzero⟩ := hx
  unfold convert ofRatio
  dsimp only
  rw [if_neg hp.ne]
  refine ⟨negative, hq.le, by simp only [hnearest], fun hnegative => ?_⟩
  rw [hzero hnegative, f.units_zero, Nat.zero_mul] at hnearest
  rw [← hnearest, (Format.nearest_eq_zero_iff (twoPow_pos _)).mpr (Nat.zero_le _)]

/-- A positive number stays positive and finite. -/
theorem exists_convert_at (hx : x.At p) (h0 : 0 < p) (hp : p < f.infinity) :
    ∃ q, 0 < q ∧ q < binary64.infinity ∧ (x.convert binary64).At q := by
  obtain ⟨q, hqf, hq, hunits⟩ := convert_at hx hp
  refine ⟨q, ?_, hqf, hq⟩
  have hpos := Nat.mul_pos (f.units_pos h0) (twoPow_pos binary64.unitBits)
  rw [← hunits] at hpos
  rw [Nat.pos_iff_ne_zero]
  rintro rfl
  rw [Format.units_zero, Nat.zero_mul] at hpos
  exact absurd hpos (Nat.lt_irrefl 0)

theorem value_convert (hx : x.At p) (hp : p < f.infinity) : (x.convert binary64).value = x.value := by
  obtain ⟨q, -, hq, hunits⟩ := convert_at hx hp
  rw [hq.value_eq, hx.value_eq, div_eq_div_iff (twoPow_unitBits_pos _).ne' (twoPow_unitBits_pos _).ne']
  exact_mod_cast hunits

/-- A number of the wider format is its own conversion. -/
theorem convert_self (x : Binary binary64) : x.convert binary64 = x := by
  cases x with
  | nan => rfl
  | signed negative p hp =>
    unfold convert ofRatio
    dsimp only
    split
    · rename_i h
      subst h
      rfl
    · simp only [Format.nearest_units (twoPow_pos _) hp]

end Binary

end DifferentialPrivacy
