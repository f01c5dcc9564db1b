import DifferentialPrivacy.Proofs.Number.RoundingError

set_option autoImplicit false

/-!
# Squares and whole parts, rounded to nearest

A square is finite up to the last number below the root of the overflow threshold. Rounding raises it by
so little that dividing it by its own root, or by more, does not lead beyond that number again. The
whole part of a number is always a number of the format.
-/
namespace DifferentialPrivacy

namespace Format

variable {f : Format} {p q : Nat}

/-- The position of a square, rounded to nearest. -/
def square (f : Format) (p : Nat) : Nat := f.nearest (f.units p * f.units p) (twoPow f.unitBits)

theorem square_mono (f : Format) : Monotone f.square := fun _ _ h =>
  nearest_mono (twoPow_pos _)
    (Nat.mul_le_mul (f.units_strictMono.monotone h) (f.units_strictMono.monotone h))

theorem square_le_one (h : p ≤ f.one) : f.square p ≤ f.one := by
  have hunits := f.units_strictMono.monotone h
  apply nearest_le (twoPow_pos _)
  refine Nat.mul_le_mul hunits ?_
  rwa [← f.units_one]

/-- The position of the last number whose square is finite. -/
def lastSquare (f : Format) : Nat := f.one + (f.infinity - f.one) / 2 - 1

theorem lastSquare_lt_infinity (f : Format) : f.lastSquare < f.infinity := by cases f <;> decide

theorem square_lt_infinity_iff : f.square p < f.infinity ↔ p ≤ f.lastSquare := by
  constructor
  · intro h
    by_contra hlt
    have hnext : f.square (f.lastSquare + 1) = f.infinity := by cases f <;> decide +kernel
    exact absurd (f.square_mono (Nat.not_le.mp hlt)) (Nat.not_le.mpr (hnext ▸ h))
  · intro h
    have hlast : f.square f.lastSquare < f.infinity := by cases f <;> decide +kernel
    exact (f.square_mono h).trans_lt hlast

/-- A rounded square is above the exact one by half of its spacing at most. -/
theorem units_square_le (f : Format) (p : Nat) :
    twoPow (f.fractionBits + 1) * (f.units (f.square p) * twoPow f.unitBits) ≤
      (twoPow (f.fractionBits + 1) + 1) * (f.units p * f.units p) +
        twoPow f.fractionBits * twoPow f.unitBits := by
  obtain ⟨low, hlow, -, hcases⟩ := f.nearest_halves (f.units p * f.units p) (twoPow_pos f.unitBits)
  have hsucc := f.units_succ low
  have hspacing : twoPow f.fractionBits * (f.spacing low * twoPow f.unitBits) ≤
      f.units p * f.units p + twoPow f.fractionBits * twoPow f.unitBits := by
    rcases f.spacing_le_one_or low with hone | hwide
    · rw [hone, Nat.one_mul]
      exact Nat.le_add_left _ _
    · rw [← Nat.mul_assoc]
      exact ((Nat.mul_le_mul_right _ hwide).trans hlow).trans (Nat.le_add_right _ _)
  unfold square
  rw [twoPow_succ]
  rcases hcases with ⟨hnearest, -⟩ | ⟨hnearest, hmiddle⟩
  · have hle : f.units (f.nearest (f.units p * f.units p) (twoPow f.unitBits)) ≤ f.units low :=
      f.units_strictMono.monotone (hnearest ▸ Nat.min_le_left _ _)
    have hscaled := (Nat.mul_le_mul_right (twoPow f.unitBits) hle).trans hlow
    refine (Nat.mul_le_mul_left _ hscaled).trans (Nat.le_add_right_of_le ?_)
    exact Nat.mul_le_mul_right _ (Nat.le_succ _)
  · have hle : f.units (f.nearest (f.units p * f.units p) (twoPow f.unitBits)) ≤ f.units (low + 1) :=
      f.units_strictMono.monotone (hnearest ▸ Nat.min_le_left _ _)
    have hscaled := Nat.mul_le_mul_right (twoPow f.unitBits) hle
    rw [hsucc] at hmiddle hscaled
    linarith [Nat.mul_le_mul_left (twoPow f.fractionBits * 2) hscaled,
      Nat.mul_le_mul_left (twoPow f.fractionBits) hmiddle]

/-- A finite square over its root is a number whose square is finite as well. -/
theorem units_square_mul_le (h : p ≤ f.lastSquare) :
    f.units (f.square p) * twoPow f.unitBits ≤ f.units f.lastSquare * f.units p := by
  rcases h.eq_or_lt with rfl | hlt
  · cases f <;> decide +kernel
  · rcases Nat.eq_zero_or_pos p with rfl | hp
    · have hzero : f.square 0 = 0 := by
        unfold square
        rw [nearest_eq_zero_iff (twoPow_pos _), f.units_zero]
        exact Nat.zero_le _
      rw [hzero, f.units_zero, Nat.zero_mul]
      exact Nat.zero_le _
    · have hroot : f.units p ≤ f.units (f.lastSquare - 1) :=
        f.units_strictMono.monotone (Nat.le_sub_one_of_lt hlt)
      have hroom : (twoPow (f.fractionBits + 1) + 1) * f.units (f.lastSquare - 1) +
          twoPow f.fractionBits * twoPow f.unitBits ≤
            twoPow (f.fractionBits + 1) * f.units f.lastSquare := by cases f <;> decide +kernel
      apply Nat.le_of_mul_le_mul_left _ (twoPow_pos (f.fractionBits + 1))
      calc
        _ ≤ _ := f.units_square_le p
        _ ≤ ((twoPow (f.fractionBits + 1) + 1) * f.units (f.lastSquare - 1) +
              twoPow f.fractionBits * twoPow f.unitBits) * f.units p := by
          rw [← Nat.mul_assoc, Nat.add_mul _ (twoPow f.fractionBits * _) (f.units p)]
          exact Nat.add_le_add (Nat.mul_le_mul_right _ (Nat.mul_le_mul_left _ hroot))
            (Nat.le_mul_of_pos_right _ (f.units_pos hp))
        _ ≤ _ := by
          rw [← Nat.mul_assoc]
          exact Nat.mul_le_mul_right _ hroom

/-- A number is whole from some point on, and before that its whole part has few digits. -/
theorem exists_units_floor (hp : p < f.infinity) : ∃ l < f.infinity,
    f.units l = f.units p / twoPow f.unitBits * twoPow f.unitBits := by
  have hle := Nat.div_mul_le_self (f.units p) (twoPow f.unitBits)
  suffices h : ∃ l, f.units l = f.units p / twoPow f.unitBits * twoPow f.unitBits by
    obtain ⟨l, hl⟩ := h
    exact ⟨l, (f.units_strictMono.le_iff_le.mp (hl.trans_le hle)).trans_lt hp, hl⟩
  rcases Nat.le_total (f.spacing p) (twoPow f.unitBits) with hfine | hcoarse
  · refine ⟨_, units_floorPosition_mul (h := f.units p / twoPow f.unitBits) ?_ f.unitBits⟩
    apply Nat.div_le_of_le_mul
    rw [Nat.mul_comm]
    exact ((f.units_strictMono p.lt_succ_self).le.trans (f.units_succ_le p)).trans
      (Nat.mul_le_mul_left _ hfine)
  · refine ⟨p, (Nat.div_mul_cancel ?_).symm⟩
    exact (Nat.pow_dvd_pow 2 (Nat.pow_le_pow_iff_right Nat.one_lt_two |>.mp hcoarse)).trans
      (f.spacing_dvd_units p)

end Format

namespace Binary

variable {f : Format} {x y : Binary f} {p q : Nat}

theorem At.square_at (hx : x.At p) (hp : p < f.infinity) : (x * x).At (f.square p) := by
  obtain ⟨negative, hle, rfl, -⟩ := hx
  change (Binary.mul _ _).At _
  unfold Binary.mul
  dsimp only
  rw [if_neg (not_or.mpr ⟨hp.ne, hp.ne⟩), Bool.xor_self]
  exact positive_at _

theorem neg_mul_neg_self (x : Binary f) : -x * -x = x * x := by
  cases x with
  | nan => rfl
  | signed negative p hp =>
    change mul (signed (!negative) p hp) (signed (!negative) p hp) = mul _ _
    unfold mul
    dsimp only
    rw [Bool.xor_self, Bool.xor_self]

/-- The square of a difference does not depend on which number is the larger one. -/
theorem sub_mul_self_at (hx : x.At p) (hy : y.At q) (hp : p < f.infinity) (hq : q < f.infinity) :
    ∃ r ≤ Nat.max p q, ((x - y) * (x - y)).At (f.square r) := by
  rcases Nat.le_total (f.units q) (f.units p) with hle | hle
  · have hdiff := sub_at hx hy hp hq hle
    have hpart : f.nearest (f.units p - f.units q) 1 ≤ p := Format.nearest_sub_le rfl
    exact ⟨_, hpart.trans (Nat.le_max_left p q), hdiff.square_at (hpart.trans_lt hp)⟩
  · have hdiff : (-(x - y)).At (f.nearest (f.units q - f.units p) 1) := by
      apply neg_add_at (hx.isFinite_iff.mpr hp) ((isFinite_neg y).trans (hy.isFinite_iff.mpr hq))
      rw [units_neg, hx.units_eq, hy.units_eq]
      omega
    have hpart : f.nearest (f.units q - f.units p) 1 ≤ q := Format.nearest_sub_le rfl
    rw [← neg_mul_neg_self]
    exact ⟨_, hpart.trans (Nat.le_max_right p q), hdiff.square_at (hpart.trans_lt hq)⟩

theorem At.floor_at (hx : x.At p) (hp : p < f.infinity) : ∃ l < f.infinity, x.floor.At l ∧
    f.units l = f.units p / twoPow f.unitBits * twoPow f.unitBits := by
  obtain ⟨l, hl, hunits⟩ := f.exists_units_floor hp
  refine ⟨l, hl, ?_, hunits⟩
  rcases Nat.eq_zero_or_pos p with rfl | hp0
  · have hzero : l = 0 := by
      apply f.units_strictMono.injective
      rw [hunits, f.units_zero, Nat.zero_div, Nat.zero_mul]
    obtain ⟨negative, hle, rfl, -⟩ := hx
    have hsame : (signed negative 0 hle).floor = signed negative 0 hle := if_pos (Or.inr rfl)
    rw [hsame, hzero]
    exact zero_at_of_sign f negative
  · obtain ⟨hle, rfl⟩ := hx.eq_positive hp0
    have hwhole := ofUnits_at f false (f.units l)
    have hexact := Format.nearest_units (f := f) Nat.one_pos hl.le
    rw [Nat.mul_one] at hexact
    rw [hexact, hunits] at hwhole
    unfold floor
    dsimp only
    rw [if_neg (not_or.mpr ⟨hp.ne, hp0.ne'⟩)]
    push_cast at hwhole
    exact hwhole

end Binary

end DifferentialPrivacy
