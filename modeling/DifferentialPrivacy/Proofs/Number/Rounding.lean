import DifferentialPrivacy.Number.Format
import Mathlib.Order.Monotone.Basic
import Mathlib.Tactic.Linarith
import Mathlib.Tactic.Ring

set_option autoImplicit false

/-!
# Positions of a format and rounding to the nearest one

From one position to the next the distance from zero grows by the spacing there, a power of two that
divides it. So positions lie in the order of their units, and the nearest position to an amount is
on the same side of every position as the amount itself.
-/
namespace DifferentialPrivacy.Format

variable {f : Format}

/-- How far the next position lies above a position, in units. -/
def spacing (f : Format) (m : Nat) : Nat := twoPow (m / twoPow f.fractionBits - 1)

theorem spacing_pos (f : Format) (m : Nat) : 0 < f.spacing m := twoPow_pos _

theorem units_of_lt {m : Nat} (h : m < twoPow f.fractionBits) : f.units m = m ∧ f.spacing m = 1 := by
  unfold units spacing
  rw [twoPow_succ, if_pos (by omega), Nat.div_eq_of_lt h]
  exact ⟨rfl, rfl⟩

theorem units_of_le {m : Nat} (h : twoPow f.fractionBits ≤ m) :
    f.units m = (twoPow f.fractionBits + m % twoPow f.fractionBits) * f.spacing m := by
  have hp := twoPow_pos f.fractionBits
  unfold units spacing
  split
  · rename_i hm
    rw [twoPow_succ] at hm
    have hdiv : m / twoPow f.fractionBits = 1 := by
      rw [Nat.div_eq_iff hp]
      omega
    have hmod := Nat.div_add_mod m (twoPow f.fractionBits)
    rw [hdiv] at hmod ⊢
    change m = _ * 1
    omega
  · rw [Nat.shiftLeft_eq]
    rfl

/-- The spacing of the binades runs through the powers of two. -/
theorem spacing_mul_twoPow (f : Format) (k : Nat) :
    f.spacing ((k + 1) * twoPow f.fractionBits) = twoPow k := by
  rw [spacing, Nat.mul_div_cancel _ (twoPow_pos _), Nat.add_sub_cancel]

/-- Every binade starts at a power of two. -/
theorem units_mul_twoPow (f : Format) (k : Nat) :
    f.units ((k + 1) * twoPow f.fractionBits) = twoPow (f.fractionBits + k) := by
  rw [units_of_le (Nat.le_mul_of_pos_left _ (Nat.add_one_pos k)), spacing_mul_twoPow,
    Nat.mul_mod_left, Nat.add_zero, twoPow_add]

theorem units_succ (f : Format) (m : Nat) : f.units (m + 1) = f.units m + f.spacing m := by
  have hp := twoPow_pos f.fractionBits
  rcases Nat.lt_or_ge m (twoPow f.fractionBits) with hm | hm
  · obtain ⟨hu, hs⟩ := units_of_lt hm
    rw [hu, hs]
    unfold units
    rw [twoPow_succ, if_pos (by omega)]
  · rw [units_of_le hm, units_of_le (Nat.le_succ_of_le hm)]
    have hle := Nat.div_le_div_right (c := twoPow f.fractionBits) hm
    rw [Nat.div_self hp] at hle
    have hdm := Nat.div_add_mod m (twoPow f.fractionBits)
    have hlt := Nat.mod_lt m hp
    -- The fraction either grows by one or has run through all its values.
    rcases Nat.lt_or_ge (m % twoPow f.fractionBits + 1) (twoPow f.fractionBits) with hc | hc
    · have hdiv : (m + 1) / twoPow f.fractionBits = m / twoPow f.fractionBits := by
        rw [Nat.div_eq_iff hp]
        rw [Nat.mul_comm] at hdm
        omega
      have hmod : (m + 1) % twoPow f.fractionBits = m % twoPow f.fractionBits + 1 := by
        rw [Nat.add_mod, Nat.mod_eq_of_lt (a := 1) (by omega), Nat.mod_eq_of_lt hc]
      unfold spacing
      rw [hdiv, hmod]
      ring
    · have hfull : m + 1 = (m / twoPow f.fractionBits + 1) * twoPow f.fractionBits := by
        rw [Nat.add_mul, Nat.mul_comm]
        omega
      have hdiv : (m + 1) / twoPow f.fractionBits = m / twoPow f.fractionBits + 1 := by
        rw [hfull, Nat.mul_div_cancel _ hp]
      have hmod : (m + 1) % twoPow f.fractionBits = 0 := by
        rw [hfull, Nat.mul_mod_left]
      have hlast : m % twoPow f.fractionBits = twoPow f.fractionBits - 1 := by omega
      obtain ⟨k, hk⟩ := Nat.exists_eq_add_of_le hle
      unfold spacing
      rw [hdiv, hmod, hlast, hk, show 1 + k + 1 - 1 = k + 1 by omega,
        show 1 + k - 1 = k by omega, twoPow_succ]
      obtain ⟨p, hp⟩ := Nat.exists_eq_add_of_lt hp
      rw [hp, show 0 + p + 1 - 1 = p by omega]
      ring

theorem units_strictMono (f : Format) : StrictMono f.units := by
  apply strictMono_nat_of_lt_succ
  intro m
  have hs := f.spacing_pos m
  rw [units_succ]
  omega

@[simp]
theorem units_zero (f : Format) : f.units 0 = 0 := (units_of_lt (twoPow_pos _)).1

theorem units_pos {m : Nat} (h : 0 < m) : 0 < f.units m := by
  have hlt := f.units_strictMono h
  rwa [units_zero] at hlt

theorem spacing_dvd_units (f : Format) (m : Nat) : f.spacing m ∣ f.units m := by
  rcases Nat.lt_or_ge m (twoPow f.fractionBits) with hm | hm
  · rw [(units_of_lt hm).2]
    exact Nat.one_dvd _
  · rw [units_of_le hm]
    exact Nat.dvd_mul_left _ _

theorem units_succ_le (f : Format) (m : Nat) :
    f.units (m + 1) ≤ twoPow (f.fractionBits + 1) * f.spacing m := by
  rw [units_succ, twoPow_succ]
  rcases Nat.lt_or_ge m (twoPow f.fractionBits) with hm | hm
  · rw [(units_of_lt hm).1, (units_of_lt hm).2]
    omega
  · have hlt := Nat.mod_lt m (twoPow_pos f.fractionBits)
    rw [units_of_le hm]
    calc
      _ = (twoPow f.fractionBits + m % twoPow f.fractionBits + 1) * f.spacing m := by ring
      _ ≤ twoPow f.fractionBits * 2 * f.spacing m := Nat.mul_le_mul_right _ (by omega)

theorem spacing_le {m : Nat} (h : twoPow f.fractionBits ≤ m) :
    twoPow f.fractionBits * f.spacing m ≤ f.units m := by
  rw [units_of_le h]
  exact Nat.mul_le_mul_right _ (Nat.le_add_right _ _)

theorem spacing_le_one_or (f : Format) (m : Nat) :
    f.spacing m = 1 ∨ twoPow f.fractionBits * f.spacing m ≤ f.units m :=
  (Nat.lt_or_ge m (twoPow f.fractionBits)).imp (fun hm => (units_of_lt hm).2) spacing_le

/-! ### The last position at most an amount -/

/-- The position with the significand `2 ^ fractionBits + h` and the given exponent. -/
theorem units_significand {h : Nat} (hh : h < twoPow f.fractionBits) (shift : Nat) :
    f.spacing (h + twoPow f.fractionBits * (shift + 1)) = twoPow shift ∧
      f.units (h + twoPow f.fractionBits * (shift + 1)) =
        (twoPow f.fractionBits + h) * twoPow shift := by
  have hspacing : f.spacing (h + twoPow f.fractionBits * (shift + 1)) = twoPow shift := by
    unfold spacing
    rw [Nat.add_mul_div_left _ _ (twoPow_pos _), Nat.div_eq_of_lt hh, Nat.zero_add,
      Nat.add_sub_cancel]
  refine ⟨hspacing, ?_⟩
  rw [units_of_le (by nlinarith), hspacing, Nat.add_mul_mod_self_left, Nat.mod_eq_of_lt hh]

theorem units_floorPosition (f : Format) (n : Nat) :
    f.units (f.floorPosition n) ≤ n ∧ n < f.units (f.floorPosition n + 1) := by
  have hp := twoPow_pos f.fractionBits
  rw [units_succ]
  unfold floorPosition
  split
  · rename_i hn
    rcases Nat.lt_or_ge n (twoPow f.fractionBits) with hm | hm
    · rw [(units_of_lt hm).1, (units_of_lt hm).2]
      omega
    · have hu : f.units n = n := by
        unfold units
        rw [if_pos hn]
      have hs := f.spacing_pos n
      rw [hu]
      omega
  · rename_i hn
    have hn0 : n ≠ 0 := by
      rintro rfl
      exact hn (twoPow_pos _)
    have hlog : f.fractionBits + 1 ≤ n.log2 := (Nat.le_log2 hn0).mpr (Nat.not_lt.mp hn)
    obtain ⟨shift, hshift⟩ := Nat.exists_eq_add_of_le (Nat.le_of_succ_le hlog)
    have hlow : twoPow n.log2 ≤ n := Nat.log2_self_le hn0
    have hhigh : n < twoPow (n.log2 + 1) := Nat.lt_log2_self
    rw [twoPow_succ, hshift, twoPow_add] at hhigh
    rw [hshift, twoPow_add] at hlow
    dsimp only
    rw [hshift, Nat.add_sub_cancel_left, Nat.shiftRight_eq_div_pow]
    change f.units (_ + n / twoPow shift) ≤ n ∧
      n < f.units (_ + n / twoPow shift) + f.spacing (_ + n / twoPow shift)
    have hs := twoPow_pos shift
    -- The leading bits of `n` are a whole significand.
    have hge : twoPow f.fractionBits ≤ n / twoPow shift := by
      rwa [Nat.le_div_iff_mul_le hs]
    have hlt : n / twoPow shift < twoPow f.fractionBits + twoPow f.fractionBits := by
      rw [Nat.div_lt_iff_lt_mul hs]
      linarith
    obtain ⟨h, hh⟩ := Nat.exists_eq_add_of_le hge
    have hposition : shift * twoPow f.fractionBits + n / twoPow shift =
        h + twoPow f.fractionBits * (shift + 1) := by
      rw [hh]
      ring
    obtain ⟨hspacing, hunits⟩ := units_significand (f := f) (by omega : h < _) shift
    rw [hposition, hspacing, hunits, ← hh]
    refine ⟨Nat.div_mul_le_self _ _, ?_⟩
    rw [← Nat.succ_mul]
    exact Nat.lt_mul_of_div_lt (Nat.lt_succ_self _) hs

theorem floorPosition_mono (f : Format) {m n : Nat} (h : m ≤ n) :
    f.floorPosition m ≤ f.floorPosition n := by
  apply Nat.lt_succ_iff.mp
  apply f.units_strictMono.lt_iff_lt.mp
  calc
    f.units (f.floorPosition m) ≤ m := (f.units_floorPosition m).1
    _ ≤ n := h
    _ < f.units (f.floorPosition n + 1) := (f.units_floorPosition n).2

/-- Amounts with no more leading bits than a significand holds are positions themselves. -/
theorem units_floorPosition_mul {h : Nat} (hh : h ≤ twoPow (f.fractionBits + 1)) (k : Nat) :
    f.units (f.floorPosition (h * twoPow k)) = h * twoPow k := by
  obtain ⟨hle, hlt⟩ := f.units_floorPosition (h * twoPow k)
  rw [units_succ] at hlt
  generalize f.floorPosition (h * twoPow k) = m at hle hlt ⊢
  have hdvd := f.spacing_dvd_units m
  rcases Nat.lt_or_ge k (m / twoPow f.fractionBits - 1) with hk | hk
  · -- A spacing wider than the last bit of the amount starts at the amount or above it.
    have hwide : twoPow k * 2 ≤ f.spacing m := by
      rw [← twoPow_succ]
      exact twoPow_le_twoPow hk
    rcases f.spacing_le_one_or m with hs | hs
    · have := twoPow_pos k
      omega
    · apply Nat.le_antisymm hle
      calc
        h * twoPow k ≤ twoPow f.fractionBits * 2 * twoPow k := by
          rw [← twoPow_succ]
          exact Nat.mul_le_mul_right _ hh
        _ = twoPow f.fractionBits * (twoPow k * 2) := by ring
        _ ≤ twoPow f.fractionBits * f.spacing m := Nat.mul_le_mul_left _ hwide
        _ ≤ f.units m := hs
  · have hdvd' : f.spacing m ∣ h * twoPow k :=
      Dvd.dvd.mul_left (Nat.pow_dvd_pow 2 hk) h
    obtain ⟨r, hr⟩ := Nat.exists_eq_add_of_le hle
    have hdr : f.spacing m ∣ r := by
      rw [hr] at hdvd'
      exact (Nat.dvd_add_right hdvd).mp hdvd'
    have hr0 := Nat.eq_zero_of_dvd_of_lt hdr (by omega)
    omega

/-! ### The nearest position -/

section Nearest

variable {num den : Nat}

theorem floorPosition_div (f : Format) (num : Nat) (hden : 0 < den) :
    f.units (f.floorPosition (num / den)) * den ≤ num ∧
      num < f.units (f.floorPosition (num / den) + 1) * den := by
  obtain ⟨hle, hlt⟩ := f.units_floorPosition (num / den)
  exact ⟨(Nat.le_div_iff_mul_le hden).mp hle, (Nat.div_lt_iff_lt_mul hden).mp hlt⟩

/-- The nearest position is the one of the two around the amount on whose side of their middle the
    amount lies. -/
theorem nearest_halves (f : Format) (num : Nat) (hden : 0 < den) :
    ∃ low, f.units low * den ≤ num ∧ num < f.units (low + 1) * den ∧
      (f.nearest num den = min low f.infinity ∧
          2 * num ≤ (f.units low + f.units (low + 1)) * den ∨
        f.nearest num den = min (low + 1) f.infinity ∧
          (f.units low + f.units (low + 1)) * den ≤ 2 * num) := by
  obtain ⟨hle, hlt⟩ := f.floorPosition_div num hden
  refine ⟨_, hle, hlt, ?_⟩
  unfold nearest nearestBy
  dsimp only
  generalize f.floorPosition (num / den) = low
  cases hc : compare (2 * num) ((f.units low + f.units (low + 1)) * den) with
  | lt =>
    rw [Nat.compare_eq_lt] at hc
    exact Or.inl ⟨rfl, hc.le⟩
  | eq =>
    rw [Nat.compare_eq_eq] at hc
    dsimp only
    split
    · exact Or.inl ⟨rfl, hc.le⟩
    · exact Or.inr ⟨rfl, hc.ge⟩
  | gt =>
    rw [Nat.compare_eq_gt] at hc
    exact Or.inr ⟨rfl, hc.le⟩

/-- The nearest position is one of the two around the amount, the lower one when the amount is that
    position. -/
theorem nearest_cases (f : Format) (num : Nat) (hden : 0 < den) :
    ∃ low, f.units low * den ≤ num ∧ num < f.units (low + 1) * den ∧
      (f.nearest num den = min low f.infinity ∨
        f.units low * den < num ∧ f.nearest num den = min (low + 1) f.infinity) := by
  obtain ⟨low, hle, hlt, hhalves⟩ := f.nearest_halves num hden
  refine ⟨low, hle, hlt, ?_⟩
  rw [Nat.add_mul] at hhalves
  rcases hhalves with ⟨hn, -⟩ | ⟨hn, hmiddle⟩
  · exact Or.inl hn
  · exact Or.inr ⟨by omega, hn⟩

theorem le_nearest {p : Nat} (hden : 0 < den) (hp : p ≤ f.infinity) (h : f.units p * den ≤ num) :
    p ≤ f.nearest num den := by
  obtain ⟨low, -, hlt, hcases⟩ := f.nearest_cases num hden
  have hlow : p < low + 1 := by
    apply f.units_strictMono.lt_iff_lt.mp
    exact Nat.lt_of_mul_lt_mul_right (Nat.lt_of_le_of_lt h hlt)
  omega

theorem nearest_le {p : Nat} (hden : 0 < den) (h : num ≤ f.units p * den) :
    f.nearest num den ≤ p := by
  obtain ⟨low, hle, -, hcases⟩ := f.nearest_cases num hden
  have hlow : low ≤ p := by
    apply f.units_strictMono.le_iff_le.mp
    exact Nat.le_of_mul_le_mul_right (hle.trans h) hden
  rcases hcases with hn | ⟨hlt, hn⟩
  · omega
  · have hne : low ≠ p := by
      rintro rfl
      omega
    omega

theorem nearest_units {p : Nat} (hden : 0 < den) (hp : p ≤ f.infinity) :
    f.nearest (f.units p * den) den = p :=
  Nat.le_antisymm (nearest_le hden (Nat.le_refl _)) (le_nearest hden hp (Nat.le_refl _))

theorem lt_units_nearest_succ (hden : 0 < den) (h : f.nearest num den < f.infinity) :
    num < f.units (f.nearest num den + 1) * den := by
  by_contra hge
  have := le_nearest hden h (Nat.not_lt.mp hge)
  omega

theorem nearest_eq_zero_iff (hden : 0 < den) : f.nearest num den = 0 ↔ 2 * num ≤ den := by
  have hinf := f.zero_lt_infinity
  have hone : f.units 1 = 1 := by cases f <;> decide
  rcases Nat.lt_or_ge num den with hlt | hge
  · have hlow : f.floorPosition (num / den) = 0 := by
      rw [Nat.div_eq_of_lt hlt]
      unfold floorPosition
      rw [if_pos (twoPow_pos _)]
    unfold nearest nearestBy
    dsimp only
    rw [hlow, hone, units_zero, Nat.zero_add, Nat.one_mul]
    cases hc : compare (2 * num) den with
    | lt =>
      rw [Nat.compare_eq_lt] at hc
      dsimp only
      omega
    | eq =>
      rw [Nat.compare_eq_eq] at hc
      dsimp only
      rw [if_pos rfl]
      omega
    | gt =>
      rw [Nat.compare_eq_gt] at hc
      dsimp only
      omega
  · have hle : f.units 1 * den ≤ num := by rwa [hone, Nat.one_mul]
    have := le_nearest hden hinf hle
    omega

end Nearest

end DifferentialPrivacy.Format
