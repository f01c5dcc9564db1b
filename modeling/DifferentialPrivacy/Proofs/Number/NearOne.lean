import DifferentialPrivacy.Proofs.Number.RoundingError

set_option autoImplicit false

/-!
# Numbers next to one

Above one the numbers are a precision apart, below it half a precision. So every number between one
and two is a whole number of precisions beyond one, and every number between one half and one a whole
number of half precisions short of it.
-/
namespace DifferentialPrivacy

namespace Format

variable {f : Format} {k : Nat}

theorem spacing_one_add (hk : k < twoPow f.fractionBits) : f.spacing (f.one + k) = f.spacing f.one := by
  have hdiv : (f.one + k) / twoPow f.fractionBits = f.one / twoPow f.fractionBits := by
    have hone : f.one % twoPow f.fractionBits = 0 := by cases f <;> decide
    rw [Nat.add_div_of_dvd_right (Nat.dvd_of_mod_eq_zero hone), Nat.div_eq_of_lt hk, Nat.add_zero]
  unfold spacing
  rw [hdiv]

theorem units_one_add_of_le (hk : k ≤ twoPow f.fractionBits) :
    f.units (f.one + k) = twoPow f.unitBits + k * f.spacing f.one := by
  induction k with
  | zero => rw [Nat.zero_mul, Nat.add_zero, Nat.add_zero, f.units_one]
  | succ k ih =>
    rw [← Nat.add_assoc, f.units_succ, ih (Nat.le_of_succ_le hk), spacing_one_add hk]
    ring

theorem two_mul_spacing_one_sub (hk0 : 0 < k) (hk : k ≤ twoPow f.fractionBits) :
    2 * f.spacing (f.one - k) = f.spacing f.one := by
  have hone : f.one = (f.one / twoPow f.fractionBits) * twoPow f.fractionBits := by cases f <;> decide
  have hlarge : 2 < f.one / twoPow f.fractionBits := by cases f <;> decide
  generalize f.one / twoPow f.fractionBits = e at hone hlarge
  have hpos := twoPow_pos f.fractionBits
  have hdiv : (f.one - k) / twoPow f.fractionBits = e - 1 := by
    rw [Nat.div_eq_iff hpos]
    obtain ⟨e, rfl⟩ : ∃ n, e = n + 1 := ⟨e - 1, by omega⟩
    rw [Nat.add_sub_cancel]
    rw [Nat.add_mul, Nat.one_mul] at hone
    omega
  have hdiv' : f.one / twoPow f.fractionBits = e := by
    rw [hone, Nat.mul_div_cancel _ hpos]
  unfold spacing
  rw [hdiv, hdiv', Nat.mul_comm, ← twoPow_succ]
  congr 1
  omega

theorem two_mul_units_one_sub (hk : k ≤ twoPow f.fractionBits) :
    2 * f.units (f.one - k) + k * f.spacing f.one = 2 * twoPow f.unitBits := by
  have hroom : twoPow f.fractionBits < f.one := by cases f <;> decide
  induction k with
  | zero => rw [Nat.zero_mul, Nat.add_zero, Nat.sub_zero, f.units_one]
  | succ k ih =>
    have hprev := ih (Nat.le_of_succ_le hk)
    have hspacing := two_mul_spacing_one_sub (f := f) k.succ_pos hk
    have hsucc := f.units_succ (f.one - (k + 1))
    rw [show f.one - (k + 1) + 1 = f.one - k by omega] at hsucc
    rw [Nat.succ_eq_add_one] at hspacing
    rw [Nat.add_mul, Nat.one_mul]
    omega

theorem spacing_one_mul_quantum (f : Format) : f.spacing f.one * f.quantum = f.precision := by
  have hunit : (0 : ℝ) < twoPow f.unitBits := Nat.cast_pos.mpr (twoPow_pos _)
  have hfraction : (0 : ℝ) < twoPow f.fractionBits := Nat.cast_pos.mpr (twoPow_pos _)
  unfold quantum precision
  rw [← div_eq_mul_inv, div_eq_iff hunit.ne', inv_mul_eq_div, eq_div_iff hfraction.ne']
  exact_mod_cast f.spacing_one_mul

end Format

namespace Binary

variable {f : Format} {x : Binary f} {k p : Nat}

theorem value_one_add (hx : x.At (f.one + k)) (hk : k ≤ twoPow f.fractionBits) :
    (x.value : ℝ) = 1 + k * f.precision := by
  rw [real_value_eq, hx.units_eq, Format.units_one_add_of_le hk, ← f.spacing_one_mul_quantum]
  push_cast
  linarith [f.twoPow_unitBits_mul_quantum]

theorem value_one_sub (hx : x.At (f.one - k)) (hk : k ≤ twoPow f.fractionBits) :
    (x.value : ℝ) = 1 - k * f.precision / 2 := by
  have hunits : (2 * f.units (f.one - k) + k * f.spacing f.one : ℝ) = 2 * twoPow f.unitBits := by
    exact_mod_cast Format.two_mul_units_one_sub hk
  have hscaled := congrArg (· * f.quantum) hunits
  rw [real_value_eq, hx.units_eq, Int.cast_natCast, ← f.spacing_one_mul_quantum]
  linarith [f.twoPow_unitBits_mul_quantum]

/-- The grid between one and two. -/
theorem At.exists_one_add (hx : x.At p) (h : f.one ≤ p) (htwo : (x.value : ℝ) < 2) :
    ∃ k < twoPow f.fractionBits, p = f.one + k ∧ (x.value : ℝ) = 1 + k * f.precision := by
  have hlt : p < f.one + twoPow f.fractionBits := by
    by_contra hge
    have hmono := (two_at f).real_value_mono hx (Nat.not_lt.mp hge)
    rw [value_two, Rat.cast_ofNat] at hmono
    linarith
  obtain ⟨k, rfl⟩ := Nat.exists_eq_add_of_le h
  have hk : k < twoPow f.fractionBits := by omega
  exact ⟨k, hk, rfl, value_one_add hx hk.le⟩

/-- The grid between one half and one. -/
theorem At.exists_one_sub (hx : x.At p) (h : p ≤ f.one) (hhalf : 1 / 2 < (x.value : ℝ)) :
    ∃ k < twoPow f.fractionBits, p = f.one - k ∧ (x.value : ℝ) = 1 - k * f.precision / 2 := by
  have hlt : f.one - twoPow f.fractionBits < p := by
    by_contra hge
    have hroom : f.one - twoPow f.fractionBits ≤ f.infinity :=
      (Nat.sub_le _ _).trans f.one_le_infinity
    have hmono := hx.real_value_mono (positive_at hroom) (Nat.not_lt.mp hge)
    rw [value_one_sub (positive_at hroom) le_rfl, mul_comm, f.precision_mul_twoPow] at hmono
    linarith
  obtain ⟨k, rfl⟩ : ∃ k, p = f.one - k := ⟨f.one - p, by omega⟩
  have hk : k < twoPow f.fractionBits := by omega
  exact ⟨k, hk, rfl, value_one_sub hx hk.le⟩

theorem one_add_precision_le (hx : x.At p) (h : f.one < p) : 1 + f.precision ≤ x.value := by
  have hnext : (signed false (f.one + 1) f.one_lt_infinity).At (f.one + 1) := positive_at _
  have hle := hnext.real_value_mono hx h
  rwa [value_one_add hnext (twoPow_pos _), Nat.cast_one, one_mul] at hle

theorem value_le_one_sub (hx : x.At p) (h : p < f.one) : x.value ≤ 1 - f.precision / 2 := by
  have hroom : f.one - 1 ≤ f.infinity := (Nat.sub_le _ _).trans f.one_le_infinity
  have hle := hx.real_value_mono (positive_at hroom) (Nat.le_sub_one_of_lt h)
  rwa [value_one_sub (positive_at hroom) (twoPow_pos _), Nat.cast_one, one_mul] at hle

end Binary

end DifferentialPrivacy
