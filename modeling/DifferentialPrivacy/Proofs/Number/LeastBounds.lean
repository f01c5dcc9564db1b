import DifferentialPrivacy.Proofs.Number.DirectedOrder
import Mathlib.Tactic.Positivity

set_option autoImplicit false

/-!
# Upward quotients and products as least bounds

The upward position of an amount is never above a position that is no less than the amount. So an
upward quotient is the least bound on the exact one, and an upward product that on the exact product,
unless the remainder that they look at is lost.
-/
namespace DifferentialPrivacy

namespace Format

variable {f : Format} {p num den : Nat}

theorem RemainderVanishes.upward_eq (h : f.RemainderVanishes num den) :
    f.upward num den = f.nearest num den := by
  have hle := h.2
  exact if_neg (by omega)

theorem upward_le (hden : 0 < den) (h : num ≤ f.units p * den) : f.upward num den ≤ p := by
  have hle := nearest_le hden h
  unfold upward
  dsimp only
  split
  · rename_i hstep
    have hne : f.nearest num den ≠ p := by
      intro heq
      rw [heq] at hstep
      omega
    omega
  · exact hle

end Format

namespace Binary

variable {f : Format} {x y : Binary f} {p q : Nat} {amount : ℚ}

theorem At.unique (h : x.At p) (h' : x.At q) : p = q :=
  Int.ofNat.inj (Option.some.inj (h.ordinal?_eq.symm.trans h'.ordinal?_eq))

theorem At.lt_iff (hx : x.At p) (hy : y.At q) : x.lt y = true ↔ p < q := by
  unfold lt
  rw [hx.ordinal?_eq, hy.ordinal?_eq]
  exact decide_eq_true_iff.trans Int.ofNat_lt

theorem At.eq_iff (hx : x.At p) (hy : y.At q) : x.eq y = true ↔ p = q := by
  unfold eq
  rw [hx.ordinal?_eq, hy.ordinal?_eq]
  exact decide_eq_true_iff.trans Int.ofNat_inj

theorem one_at (f : Format) : (one : Binary f).At f.one := positive_at f.one_le_infinity

theorem two_at (f : Format) : (two : Binary f).At (f.one + twoPow f.fractionBits) :=
  two_eq f ▸ positive_at f.one_add_lt_infinity.le

theorem At.isZero_iff (h : x.At p) : x.isZero = true ↔ p = 0 := by
  obtain ⟨negative, hp, rfl, -⟩ := h
  exact decide_eq_true_iff

theorem At.atLeast_iff (h : x.At p) :
    x.AtLeast amount ↔ (p < f.infinity → amount ≤ (f.units p : ℚ) / twoPow f.unitBits) := by
  have hfinite := h.isFinite_iff
  rw [← h.value_eq]
  constructor
  · rintro (rfl | ⟨-, hle⟩) hp
    · exact absurd ((h.unique (infinity_at f)).symm ▸ hp) (Nat.lt_irrefl _)
    · exact hle
  · intro hle
    rcases h.le_infinity.eq_or_lt with rfl | hp
    · exact Or.inl h.eq_infinity
    · exact Or.inr ⟨hfinite.mpr hp, hle hp⟩

theorem value_nonneg_of_zero_le (h : zero.le x = true) : 0 ≤ x.value := by
  obtain ⟨p, hp⟩ := exists_at_of_zero_le h
  rw [hp.value_eq]
  positivity

theorem exists_at_of_value_nonneg (hf : x.isFinite = true) (h : 0 ≤ x.value) : ∃ p, x.At p := by
  unfold value at h
  rw [le_div_iff₀ (twoPow_unitBits_pos f), zero_mul] at h
  exact exists_at_of_units_nonneg hf (Int.cast_nonneg_iff.mp h)

theorem AtLeast.mono {amount' : ℚ} (h : x.AtLeast amount) (hle : amount' ≤ amount) :
    x.AtLeast amount' := h.imp_right fun ⟨hx, hbound⟩ => ⟨hx, hle.trans hbound⟩

theorem not_zero_atLeast {amount : ℚ} (h : 0 < amount) : ¬(zero : Binary f).AtLeast amount := by
  rw [(zero_at f).atLeast_iff, f.units_zero, Nat.cast_zero, zero_div]
  exact fun hle => absurd h (not_lt.mpr (hle f.zero_lt_infinity))

theorem value_pos_of_zero_lt (h : zero.lt x = true) : 0 < x.value := by
  obtain ⟨p, hp, hp0, rfl⟩ := eq_positive_of_zero_lt h
  exact value_pos hp hp0

theorem zero_le_of_zero_lt (h : zero.lt x = true) : zero.le x = true := by
  obtain ⟨p, hp, -, rfl⟩ := eq_positive_of_zero_lt h
  exact ((zero_at f).le_iff (positive_at hp)).mpr (Nat.zero_le p)

/-! ### Quotients -/

/-- The quotient loses its remainder. -/
def LosesQuotient (x y : Binary f) : Prop :=
  ∃ p q, x.At p ∧ y.At q ∧ f.RemainderVanishes (f.units p * twoPow f.unitBits) (f.units q)

theorem At.losesQuotient_iff (hx : x.At p) (hy : y.At q) : x.LosesQuotient y ↔
    f.RemainderVanishes (f.units p * twoPow f.unitBits) (f.units q) := by
  constructor
  · rintro ⟨p', q', hx', hy', hlost⟩
    rwa [hx.unique hx', hy.unique hy']
  · exact fun hlost => ⟨p, q, hx, hy, hlost⟩

/-- Zero has nothing to lose, and a dividend that is not very small keeps the remainder. -/
theorem not_losesQuotient {hq : q ≤ f.infinity} (hq0 : 0 < q) (hx : zero.le x = true)
    (h : x.isZero = true ∨ (f.remainderBound : ℚ) / twoPow f.unitBits ≤ x.value) :
    ¬x.LosesQuotient (signed false q hq) := by
  obtain ⟨p, hp⟩ := exists_at_of_zero_le hx
  rw [hp.losesQuotient_iff (positive_at hq)]
  rcases h with h | h
  · obtain rfl := hp.isZero_iff.mp h
    rw [f.units_zero, Nat.zero_mul]
    exact f.not_remainderVanishes_zero _
  · rw [hp.value_eq, div_le_div_iff_of_pos_right (twoPow_unitBits_pos f), Nat.cast_le] at h
    exact Format.not_remainderVanishes_quotient h hq0

section Quotient

variable {hq : q ≤ f.infinity} (hq0 : 0 < q) (hqf : q < f.infinity)
include hq0 hqf

theorem divUp_atLeast_iff (hx : zero.le x = true) (hf : x.isFinite = true) :
    (x.divUp (signed false q hq)).AtLeast (x.value / (signed false q hq).value) ↔
      ¬x.LosesQuotient (signed false q hq) := by
  obtain ⟨p, hp⟩ := exists_at_of_zero_le hx
  have hpf := hp.isFinite_iff.mp hf
  have hden : (0 : ℚ) < f.units q := Nat.cast_pos.mpr (Format.units_pos hq0)
  have hunit := twoPow_unitBits_pos f
  rw [hp.losesQuotient_iff (positive_at hq), (hp.divUp_at hq hq0 hqf).atLeast_iff,
    Format.quotientUp_of_lt hpf, hp.value_eq, value_positive,
    div_div_div_cancel_right₀ hunit.ne', div_le_div_iff₀ hden hunit]
  norm_cast
  constructor
  · intro h hlost
    have hlt : f.upward (f.units p * twoPow f.unitBits) (f.units q) < f.infinity := by
      rw [hlost.upward_eq]
      exact (f.nearest_le_infinity _ _).lt_of_ne fun hinf =>
        Format.not_remainderVanishes_of_overflow (Nat.dvd_mul_left _ _) hinf hlost
    exact (Format.le_units_upward_iff (Format.units_pos hq0) hlt).mp (h hlt) hlost
  · intro hkept hlt
    exact (Format.le_units_upward_iff (Format.units_pos hq0) hlt).mpr hkept

/-- No bound on the exact quotient lies below the upward one. -/
theorem divUp_le_of_atLeast (hx : zero.le x = true) (hf : x.isFinite = true) {z : Binary f}
    (h : z.AtLeast (x.value / (signed false q hq).value)) :
    (x.divUp (signed false q hq)).le z = true := by
  obtain ⟨p, hp⟩ := exists_at_of_zero_le hx
  have hpf := hp.isFinite_iff.mp hf
  have hratio := div_nonneg (value_nonneg_of_zero_le hx) (value_nonneg hq)
  have hden : (0 : ℚ) < f.units q := Nat.cast_pos.mpr (Format.units_pos hq0)
  have hunit := twoPow_unitBits_pos f
  have hu := hp.divUp_at hq hq0 hqf
  rcases h with rfl | ⟨hz, h⟩
  · exact (hu.le_iff (infinity_at f)).mpr hu.le_infinity
  · obtain ⟨r, hr⟩ := exists_at_of_value_nonneg hz (hratio.trans h)
    rw [hp.value_eq, value_positive, div_div_div_cancel_right₀ hunit.ne', hr.value_eq,
      div_le_div_iff₀ hden hunit] at h
    rw [hu.le_iff hr, Format.quotientUp_of_lt hpf]
    exact Format.upward_le (Format.units_pos hq0) (by exact_mod_cast h)

theorem zero_le_divUp (hx : zero.le x = true) :
    zero.le (x.divUp (signed false q hq)) = true := by
  obtain ⟨p, hp⟩ := exists_at_of_zero_le hx
  exact ((zero_at f).le_iff (hp.divUp_at hq hq0 hqf)).mpr (Nat.zero_le _)

end Quotient

/-! ### Products -/

theorem mulUp_atLeast (hx : zero.le x = true) (hxf : x.isFinite = true) (hy : zero.le y = true)
    (hyf : y.isFinite = true)
    (h : x.isZero = true ∨ (f.remainderBound : ℚ) / twoPow f.unitBits ≤ x.value * y.value) :
    (x.mulUp y).AtLeast (x.value * y.value) := by
  obtain ⟨p, hp⟩ := exists_at_of_zero_le hx
  obtain ⟨q, hq⟩ := exists_at_of_zero_le hy
  have hunit := twoPow_unitBits_pos f
  have hvalue : x.value * y.value =
      (f.units p * f.units q : Nat) / twoPow f.unitBits / twoPow f.unitBits := by
    rw [hp.value_eq, hq.value_eq, div_mul_div_comm, div_div, Nat.cast_mul]
  have hkept : ¬f.RemainderVanishes (f.units p * f.units q) (twoPow f.unitBits) := by
    rcases h with h | h
    · obtain rfl := hp.isZero_iff.mp h
      rw [f.units_zero, Nat.zero_mul]
      exact f.not_remainderVanishes_zero _
    · rw [hvalue, div_le_div_iff_of_pos_right hunit, le_div_iff₀ hunit] at h
      exact Format.not_remainderVanishes_product (by exact_mod_cast h)
  rw [(hp.mulUp_at hq (hp.isFinite_iff.mp hxf) (hq.isFinite_iff.mp hyf)).atLeast_iff, hvalue]
  intro hlt
  rw [div_le_div_iff_of_pos_right hunit, div_le_iff₀ hunit]
  exact_mod_cast (Format.le_units_upward_iff (twoPow_pos _) hlt).mpr hkept

theorem infinity_mulUp (hy : y.At q) (hq : 0 < q) : infinity.mulUp y = infinity := by
  have hproduct := mul_of_infinite (infinity_at f) hy f.zero_lt_infinity hq (Or.inl rfl)
  unfold mulUp
  dsimp only
  rw [hproduct, if_neg]
  exact fun h => absurd ((infinity_at f).isFinite_iff.mp h.1) (Nat.lt_irrefl _)

end Binary
end DifferentialPrivacy
