import DifferentialPrivacy.Proofs.Number.LeastBounds

set_option autoImplicit false

/-!
# Halves of squares, rounded up

Halving never loses anything: it is exact for an even number of units, and it is stepped up by half a
unit for an odd one, which also makes up for a remainder that the square before it has lost. So half
the square of a number is too small exactly when the square loses its remainder and is even. This
happens to numbers below a bound only, the largest of them among them. The half is zero for the
numbers up to the square root of half the smallest positive value.
-/
namespace DifferentialPrivacy

namespace Format

variable {f : Format} {p r s num den : Nat}

/-! ### Halves of positions -/

theorem exists_half (h : 2 ∣ f.units s) : ∃ r, 2 * f.units r = f.units s := by
  by_cases hs : f.spacing s = 1
  · obtain ⟨n, hn⟩ := h
    have hdvd : f.spacing s ∣ n := by simp only [hs, isUnit_one, IsUnit.dvd]
    obtain ⟨r, -, hr⟩ := exists_units_eq_of_dvd hdvd (by omega)
    exact ⟨r, by omega⟩
  · exact exists_two_mul_units_eq hs

/-- The position of half a number, rounded up. -/
def halfUp (f : Format) (s : Nat) : Nat := f.quotientUp (f.one + twoPow f.fractionBits) s

theorem halfUp_infinity (f : Format) : f.halfUp f.infinity = f.infinity :=
  f.quotientUp_infinity _

theorem halfUp_of_lt (hs : s < f.infinity) :
    f.halfUp s = f.upward (f.units s * twoPow f.unitBits) (2 * twoPow f.unitBits) := by
  unfold halfUp
  rw [quotientUp_of_lt hs, units_one_add]

theorem lt_infinity_of_halfUp (hs : s ≤ f.infinity) (h : f.halfUp s < f.infinity) :
    s < f.infinity := by
  rcases hs.eq_or_lt with rfl | hs
  · rwa [halfUp_infinity] at h
  · exact hs

theorem units_le_two_mul_halfUp (hs : s < f.infinity) (h : f.halfUp s < f.infinity) :
    f.units s ≤ 2 * f.units (f.halfUp s) := by
  have hunit := twoPow_pos f.unitBits
  rw [halfUp_of_lt hs] at h ⊢
  have hbound := (le_units_upward_iff (by omega) h).mpr
    (not_remainderVanishes_of_dvd (Nat.dvd_mul_left _ _) (by simp [← Nat.mul_assoc]))
  exact Nat.le_of_mul_le_mul_right (by linarith) hunit

theorem two_mul_halfUp (hs : s < f.infinity) (h : 2 ∣ f.units s) :
    2 * f.units (f.halfUp s) = f.units s := by
  have hunit := twoPow_pos f.unitBits
  obtain ⟨r, hr⟩ := exists_half h
  have hrs : r ≤ s := f.units_strictMono.le_iff_le.mp (by omega)
  have hden : 0 < 2 * twoPow f.unitBits := by omega
  have hexact := upward_units hden (hrs.trans hs.le)
  have hratio : f.units s * twoPow f.unitBits = f.units r * (2 * twoPow f.unitBits) := by
    rw [← hr]
    ring
  rw [halfUp_of_lt hs, hratio, hexact, hr]

theorem upward_eq_zero_iff (hden : 0 < den) :
    f.upward num den = 0 ↔ 2 * num ≤ den ∧ 2 * num ≤ twoPow f.unitBits := by
  have hinf := f.zero_lt_infinity
  rw [← nearest_eq_zero_iff (f := f) hden]
  unfold upward
  dsimp only
  split
  · rename_i hstep
    simp only [Nat.add_eq_zero_iff, one_ne_zero, and_false, false_iff, not_and]
    intro h0
    rw [h0, units_zero] at hstep
    omega
  · rename_i hstep
    refine ⟨fun h0 => ⟨h0, ?_⟩, And.left⟩
    rw [h0, units_zero] at hstep
    omega

theorem halfUp_eq_zero_iff (hs : s ≤ f.infinity) : f.halfUp s = 0 ↔ s = 0 := by
  have hunit := twoPow_pos f.unitBits
  rcases hs.eq_or_lt with rfl | hs
  · rw [halfUp_infinity]
  · rw [halfUp_of_lt hs, upward_eq_zero_iff (by omega)]
    constructor
    · rintro ⟨-, h⟩
      by_contra hs0
      have hpos := Nat.mul_le_mul_right (twoPow f.unitBits) (units_pos (f := f) (by omega : 0 < s))
      omega
    · rintro rfl
      simp

/-! ### The position of half a square -/

/-- The position of half the square, both rounded up. -/
def halfSquareUp (f : Format) (p : Nat) : Nat := f.halfUp (f.squareUp p)

theorem squareUp_le_infinity (f : Format) (p : Nat) : f.squareUp p ≤ f.infinity := by
  unfold squareUp
  split
  · exact le_rfl
  · exact f.upward_le_infinity _ _

theorem halfSquareUp_eq_zero_iff (hp : p ≤ f.infinity) :
    f.halfSquareUp p = 0 ↔ 2 * (f.units p * f.units p) ≤ twoPow f.unitBits := by
  have hunit := twoPow_pos f.unitBits
  unfold halfSquareUp
  rw [halfUp_eq_zero_iff (f.squareUp_le_infinity p)]
  rcases hp.eq_or_lt with rfl | hp
  · have hlarge : twoPow f.unitBits ≤ f.units f.infinity := by
      rw [← f.units_one, f.units_strictMono.le_iff_le]
      exact f.one_le_infinity
    have hend := f.zero_lt_infinity
    have hsquare := Nat.mul_le_mul hlarge hlarge
    have hwide := Nat.le_mul_of_pos_left (twoPow f.unitBits) hunit
    rw [squareUp_infinity]
    omega
  · rw [squareUp_of_lt hp, upward_eq_zero_iff hunit, and_self]

/-- The square loses its remainder, and halving it makes up for nothing. -/
def LosesSquare (f : Format) (p : Nat) : Prop :=
  f.RemainderVanishes (f.units p * f.units p) (twoPow f.unitBits) ∧
    2 ∣ f.units (f.nearest (f.units p * f.units p) (twoPow f.unitBits))

theorem LosesSquare.units_lt (h : f.LosesSquare p) : f.units p < f.squareBound := by
  by_contra hge
  exact not_remainderVanishes_square (Nat.not_lt.mp hge) h.1

theorem LosesSquare.lt_infinity (h : f.LosesSquare p) : p < f.infinity := by
  have hlt := h.units_lt.trans_le f.squareBound_le
  rw [← f.units_one, f.units_strictMono.lt_iff_lt] at hlt
  exact hlt.trans_le f.one_le_infinity

theorem LosesSquare.squareUp_lt (h : f.LosesSquare p) : f.squareUp p < f.infinity := by
  have hp := h.lt_infinity
  have hle : f.units p * f.units p ≤ f.units p * twoPow f.unitBits :=
    Nat.mul_le_mul_left _ (h.units_lt.le.trans f.squareBound_le)
  rw [squareUp_of_lt hp, h.1.upward_eq]
  exact (nearest_le (twoPow_pos _) hle).trans_lt hp

theorem LosesSquare.two_mul_halfSquareUp (h : f.LosesSquare p) :
    2 * f.units (f.halfSquareUp p) = f.units (f.squareUp p) := by
  apply two_mul_halfUp h.squareUp_lt
  rw [squareUp_of_lt h.lt_infinity, h.1.upward_eq]
  exact h.2

theorem LosesSquare.halfSquareUp_lt (h : f.LosesSquare p) : f.halfSquareUp p < f.infinity := by
  have htwice := h.two_mul_halfSquareUp
  refine lt_of_le_of_lt (f.units_strictMono.le_iff_le.mp ?_) h.squareUp_lt
  omega

theorem sq_units_le_halfSquareUp_iff (hp : p < f.infinity) (h : f.halfSquareUp p < f.infinity) :
    f.units p * f.units p ≤ 2 * f.units (f.halfSquareUp p) * twoPow f.unitBits ↔
      ¬f.LosesSquare p := by
  have hs := lt_infinity_of_halfUp (f.squareUp_le_infinity p) h
  have hhalf := units_le_two_mul_halfUp hs h
  have hscaled := Nat.mul_le_mul_right (twoPow f.unitBits) hhalf
  have hsquare := squareUp_of_lt hp
  by_cases hv : f.RemainderVanishes (f.units p * f.units p) (twoPow f.unitBits)
  · have hnearest := hsquare.trans hv.upward_eq
    by_cases heven : 2 ∣ f.units (f.nearest (f.units p * f.units p) (twoPow f.unitBits))
    · have hlost : f.LosesSquare p := ⟨hv, heven⟩
      have hlt := hv.1
      rw [hlost.two_mul_halfSquareUp, hnearest]
      exact iff_of_false (by omega) (not_not.mpr hlost)
    · -- Half a unit is added to an odd square, and no more than that is missing.
      have hle := hv.2
      rw [← hnearest] at heven hle
      have hstep : f.units (f.squareUp p) + 1 ≤ 2 * f.units (f.halfSquareUp p) := by
        unfold halfSquareUp
        omega
      have hstep' := Nat.mul_le_mul_right (twoPow f.unitBits) hstep
      rw [Nat.add_mul] at hstep'
      exact iff_of_true (by omega) fun hlost => heven (hnearest ▸ hlost.2)
  · have hbound := (le_units_upward_iff (twoPow_pos _) (hsquare ▸ hs)).mpr hv
    rw [← hsquare] at hbound
    exact iff_of_true (hbound.trans hscaled) fun hlost => hv hlost.1

/-! ### Where remainders are kept -/

theorem units_floorPosition_squareBound (f : Format) :
    f.units (f.floorPosition f.squareBound) = f.squareBound := by
  unfold squareBound
  rw [twoPow_add]
  exact units_floorPosition_mul (twoPow_le_twoPow (Nat.le_succ _)) _

theorem losesSquare_last (f : Format) : f.LosesSquare (f.floorPosition f.squareBound - 1) := by
  unfold LosesSquare RemainderVanishes
  cases f <;> decide +kernel

/-- The bound is sharp: the last number below it loses its square's remainder. -/
theorem forall_not_losesSquare_iff :
    (∀ q < f.infinity, p ≤ q → ¬f.LosesSquare q) ↔ f.squareBound ≤ f.units p := by
  constructor
  · intro h
    by_contra hlt
    have hpos : p < f.floorPosition f.squareBound := by
      rw [← f.units_strictMono.lt_iff_lt, units_floorPosition_squareBound]
      exact Nat.not_le.mp hlt
    have hend : f.floorPosition f.squareBound ≤ f.infinity := by
      rw [← f.units_strictMono.le_iff_le, units_floorPosition_squareBound]
      exact f.squareBound_le.trans (f.units_one ▸ f.units_strictMono.monotone f.one_le_infinity)
    exact h _ (by omega) (by omega) f.losesSquare_last
  · intro h q _ hq hlost
    exact absurd (h.trans (f.units_strictMono.monotone hq)) (Nat.not_le.mpr hlost.units_lt)

theorem not_losesSquare_zero (f : Format) : ¬f.LosesSquare 0 := by
  rintro ⟨h, -⟩
  rw [units_zero, Nat.zero_mul] at h
  exact not_remainderVanishes_zero _ _ h

end Format

namespace Binary

variable {f : Format} {x : Binary f} {p : Nat}

/-- The square loses its remainder and is even, so that halving it makes up for nothing. -/
def LosesSquare (x : Binary f) : Prop := ∃ p, x.At p ∧ f.LosesSquare p

theorem At.losesSquare_iff (h : x.At p) : x.LosesSquare ↔ f.LosesSquare p := by
  constructor
  · rintro ⟨q, hq, hlost⟩
    rwa [h.unique hq]
  · exact fun hlost => ⟨p, h, hlost⟩

theorem At.halfSquare_at (h : x.At p) : (x.squareUp.divUp two).At (f.halfSquareUp p) :=
  h.squareUp_at.divUp_two_at

theorem half_sq_div_le_iff {u v w : Nat} (hw : 0 < w) :
    ((u : ℚ) / w) ^ 2 / 2 ≤ (v : ℚ) / w ↔ u * u ≤ 2 * v * w := by
  have hw' : (0 : ℚ) < w := Nat.cast_pos.mpr hw
  have hscale : (v : ℚ) * (w ^ 2 * 2) = 2 * v * w * w := by ring
  rw [div_pow, div_div, div_le_div_iff₀ (by positivity) hw', hscale,
    mul_le_mul_iff_of_pos_right hw', sq]
  exact_mod_cast Iff.rfl

theorem halfSquare_atLeast_iff (hx : zero.le x = true) (hf : x.isFinite = true) :
    (x.squareUp.divUp two).AtLeast (x.value ^ 2 / 2) ↔ ¬x.LosesSquare := by
  obtain ⟨p, hp⟩ := exists_at_of_zero_le hx
  have hpf := hp.isFinite_iff.mp hf
  rw [hp.losesSquare_iff, hp.halfSquare_at.atLeast_iff, hp.value_eq,
    half_sq_div_le_iff (twoPow_pos _)]
  constructor
  · intro h hlost
    exact (Format.sq_units_le_halfSquareUp_iff hpf hlost.halfSquareUp_lt).mp
      (h hlost.halfSquareUp_lt) hlost
  · intro hkept h
    exact (Format.sq_units_le_halfSquareUp_iff hpf h).mpr hkept

theorem halfSquare_isZero_iff (hx : zero.le x = true) :
    (x.squareUp.divUp two).isZero = true ↔ x.value ^ 2 ≤ 1 / (2 * twoPow f.unitBits) := by
  obtain ⟨p, hp⟩ := exists_at_of_zero_le hx
  have hunit := twoPow_unitBits_pos f
  have hleft : (f.units p : ℚ) ^ 2 * (2 * twoPow f.unitBits) =
      2 * (f.units p * f.units p) * twoPow f.unitBits := by ring
  have hright : (1 : ℚ) * (twoPow f.unitBits : ℚ) ^ 2 = twoPow f.unitBits * twoPow f.unitBits := by
    ring
  rw [hp.halfSquare_at.isZero_iff, Format.halfSquareUp_eq_zero_iff hp.le_infinity, hp.value_eq,
    div_pow, div_le_div_iff₀ (by positivity) (by positivity), hleft, hright,
    mul_le_mul_iff_of_pos_right hunit]
  exact_mod_cast Iff.rfl

theorem forall_keeps_square_iff (hx : zero.le x = true) :
    (∀ y : Binary f, y.isFinite = true → x.le y = true → ¬y.LosesSquare) ↔
      (f.squareBound : ℚ) / twoPow f.unitBits ≤ x.value := by
  obtain ⟨p, hp⟩ := exists_at_of_zero_le hx
  rw [hp.value_eq, div_le_div_iff_of_pos_right (twoPow_unitBits_pos f), Nat.cast_le,
    ← Format.forall_not_losesSquare_iff]
  constructor
  · intro h q hq hpq
    have hy := positive_at hq.le
    exact fun hlost => h _ (hy.isFinite_iff.mpr hq) ((hp.le_iff hy).mpr hpq) ⟨q, hy, hlost⟩
  · rintro h y hf hle ⟨q, hq, hlost⟩
    exact h q (hq.isFinite_iff.mp hf) ((hp.le_iff hq).mp hle) hlost

end Binary
end DifferentialPrivacy
