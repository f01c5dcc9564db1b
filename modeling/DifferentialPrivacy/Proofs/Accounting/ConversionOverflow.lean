import DifferentialPrivacy.Proofs.Accounting.Bisection

set_option autoImplicit false

/-!
# Conversions of losses that are too small

The bisection starts at `2 + √(ln (1/δ) / ρ)`. For a `ρ` so small that the quotient is infinite, the
start is infinite as well, and so is the only order that is ever tried. The loss at that order is
infinite, as small as `ρ` is.
-/
namespace DifferentialPrivacy

namespace Binary

variable {f : Format} {x y : Binary f}

/-- A sum that is not positive does not overflow when it is stepped up. -/
theorem addUp_isFinite_of_neg {s : Nat} (h : (-(x + y)).At s) (hs : s < f.infinity) :
    (x.addUp y).isFinite = true := by
  have hsum : (x + y).isFinite = true := (isFinite_neg _).symm.trans (h.isFinite_iff.mpr hs)
  have hnext : (x + y).nextUp.isFinite = true := by
    cases s with
    | zero =>
      obtain ⟨negative, p, hp, -, heq⟩ := exists_signed_of_finite hsum
      rw [heq] at h ⊢
      obtain ⟨_, _, hzero, -⟩ := h
      obtain ⟨-, rfl⟩ := Binary.signed.inj hzero
      exact decide_eq_true (by cases f <;> decide : 1 < f.infinity)
    | succ s => exact (isFinite_neg _).symm.trans ((neg_nextUp_at h).isFinite_iff.mpr (by omega))
  unfold addUp
  dsimp only
  split
  · exact hnext
  · exact hsum

theorem neg_nextDown (x : Binary f) : -x.nextDown = (-x).nextUp := by
  unfold nextDown
  cases (-x).nextUp with
  | nan => rfl
  | signed negative p hp => cases negative <;> rfl

theorem infinity_addUp (hy : y.isFinite = true) : infinity.addUp y = infinity := by
  obtain ⟨negative, p, hp, hpf, rfl⟩ := exists_signed_of_finite hy
  have hsum : infinity + signed negative p hp = infinity := by
    change add (signed false f.infinity _) (signed negative p hp) = _
    unfold add
    exact (if_pos rfl).trans (if_neg fun h => hpf.ne h.1)
  unfold addUp
  dsimp only
  rw [hsum, if_neg fun h => not_isFinite_infinity f h.1]

/-- A finite number over infinity is zero: there is no remainder to look at. -/
theorem divUp_infinity_isFinite (hx : x.isFinite = true) :
    (x.divUp infinity).isFinite = true := by
  obtain ⟨sign, hquotient⟩ := div_infinity hx
  obtain ⟨negative, p, hp, hpf, rfl⟩ := exists_signed_of_finite hx
  have hremainder : mulAdd (-signed sign 0 f.zero_le_infinity) infinity (signed negative p hp) =
      nan := by
    change mulAdd (signed (!sign) 0 _) (signed false f.infinity _) _ = _
    unfold mulAdd
    exact (if_pos (Or.inr rfl)).trans (if_pos (Or.inl rfl))
  unfold divUp
  dsimp only
  rw [hquotient, hremainder, if_neg]
  · exact decide_eq_true f.zero_lt_infinity
  · rintro ⟨-, -, hside⟩
    have hpos : zero.lt (infinity : Binary f) = true :=
      ((zero_at f).lt_iff (infinity_at f)).mpr f.zero_lt_infinity
    rw [hpos] at hside
    cases hside

/-- One over infinity is a zero, so the bound on the logarithm of its complement is a zero as well. -/
theorem lnOnePlusUp_infinity [Elementary] :
    (-(one.divDown infinity : Binary f)).lnOnePlusUp.isFinite = true := by
  have hzero : (-(one.divDown infinity : Binary f)) = signed true 0 f.zero_le_infinity := by
    cases f <;> decide
  rw [hzero]
  exact decide_eq_true f.zero_lt_infinity

end Binary

open Binary

variable {f : Format} {ρ δ : Binary f} {r : Nat}

/-- A start at infinity leaves no midpoint to go to. -/
theorem optimalAlpha_eq_infinity [Elementary] {L : Binary f} (h : (bisectionStart ρ L).2 = infinity) :
    optimalAlpha ρ L = infinity := by
  have hstart : Brackets (bisectionStart ρ L) f.one f.infinity :=
    ⟨one_at f, h ▸ infinity_at f, le_rfl, f.one_lt_infinity⟩
  have hnone := (hstart.bisectOnce?_eq_none_iff (ρ := ρ) (L := L)).mpr (Or.inr rfl)
  obtain ⟨n, ends, hrun, -, hlast⟩ := bisects_optimalAlpha hstart
  cases hrun with
  | refl => exact hlast.symm.trans h
  | next hstep _ => cases hnone.symm.trans hstep

theorem approximateEpsilon_of_zero [Elementary] (hδ : zero.lt δ = true) (hone : δ.lt one = true)
    (hρ : ρ.At 0) : approximateEpsilon ρ δ = .ok zero := by
  unfold approximateEpsilon
  rw [((zero_at f).le_iff hρ).mpr le_rfl, hδ, hone, hρ.isZero_iff.mpr rfl]
  rfl

theorem approximateEpsilon_of_infinite [Elementary] (hδ : zero.lt δ = true) (hone : δ.lt one = true)
    (hρ : ρ.At f.infinity) : approximateEpsilon ρ δ = .ok infinity := by
  have hzero : ρ.isZero = false :=
    Bool.eq_false_iff.mpr fun h => f.zero_lt_infinity.ne' (hρ.isZero_iff.mp h)
  unfold approximateEpsilon
  rw [((zero_at f).le_iff hρ).mpr (Nat.zero_le _), hδ, hone, hzero, hρ.isInfinite_iff.mpr rfl,
    ← hρ.eq_infinity]
  rfl

theorem approximateEpsilon_of_finite [Elementary] (hδ : zero.lt δ = true) (hone : δ.lt one = true)
    (hρ : ρ.At r) (hr0 : 0 < r) (hr : r < f.infinity) : approximateEpsilon ρ δ =
      .ok ((epsilonAt ρ δ (optimalAlpha ρ (-Elementary.ln δ))).max zero) := by
  have hzero : ρ.isZero = false := Bool.eq_false_iff.mpr fun h => hr0.ne' (hρ.isZero_iff.mp h)
  have hinfinite : ρ.isInfinite = false :=
    Bool.eq_false_iff.mpr fun h => hr.ne (hρ.isInfinite_iff.mp h)
  unfold approximateEpsilon
  rw [((zero_at f).le_iff hρ).mpr (Nat.zero_le r), hδ, hone, hzero, hinfinite]
  rfl

section Overflow

variable [Elementary] (hlib : Elementary.LnAccurate f)
  (hδ : zero.lt δ = true) (hone : δ.lt one = true)
include hlib

theorem lnDown_infinity : (infinity : Binary f).lnDown =
    signed false (f.infinity - 1) (Nat.sub_le _ _) := by
  have hnext : (infinity : Binary f).nextDown = signed false (f.infinity - 1) (Nat.sub_le _ _) := by
    cases f <;> decide
  have hnotOne : ¬(infinity : Binary f).eq one = true := by cases f <;> decide
  unfold lnDown
  rw [if_neg hnotOne, hlib.ln_infinity, hnext]

include hδ hone

/-- The lower bound on `ln δ` is a finite negative number. -/
theorem neg_lnDown_at : ∃ l, l < f.infinity ∧ (-δ.lnDown).At l := by
  obtain ⟨q, hq, hq0, rfl⟩ := eq_positive_of_zero_lt hδ
  have hx := positive_at hq
  have hq1 := (hx.lt_iff (one_at f)).mp hone
  obtain ⟨p, -, hpf, hp, -, hhigh⟩ := neg_ln_at hlib hx hq0 hq1
  refine ⟨p + 1, succ_lt_infinity (neg_log_value_le hx hq0) hpf hhigh, ?_⟩
  unfold lnDown
  rw [if_neg fun heq => hq1.ne ((hx.eq_iff (one_at f)).mp heq), neg_nextDown]
  exact hp.nextUp_at hpf

theorem epsilonAt_infinity (hρ : ρ.At r) (hr : 0 < r) : epsilonAt ρ δ infinity = infinity := by
  obtain ⟨l, hl, hlnDelta⟩ := neg_lnDown_at hlib hδ hone
  have hnumerator : ((-δ.lnDown).subUp (infinity : Binary f).lnDown).isFinite = true := by
    have hlast : f.infinity - 1 < f.infinity := Nat.sub_lt f.zero_lt_infinity Nat.one_pos
    rw [lnDown_infinity hlib]
    have hle := f.units_strictMono.monotone (Nat.le_sub_one_of_lt hl)
    have hsum := neg_add_at (n := f.units (f.infinity - 1) - f.units l)
      (hlnDelta.isFinite_iff.mpr hl)
      ((isFinite_neg _).trans (isFinite_positive (h := Nat.sub_le _ 1) |>.mpr hlast))
      (by
        rw [hlnDelta.units_eq, units_neg, (positive_at (Nat.sub_le _ 1)).units_eq]
        omega)
    exact addUp_isFinite_of_neg hsum
      ((Format.nearest_le Nat.one_pos (by omega : _ ≤ f.units (f.infinity - 1) * 1)).trans_lt hlast)
  have htail : ∀ y : Binary f, y = infinity →
      (((-δ.lnDown).subUp (infinity : Binary f).lnDown).divUp y).isFinite = true := by
    rintro _ rfl
    exact divUp_infinity_isFinite hnumerator
  have hdown : (infinity : Binary f).subDown one = infinity := by cases f <;> decide
  have hup : (infinity : Binary f).subUp one = infinity := by cases f <;> decide
  unfold epsilonAt
  dsimp only
  rw [infinity_mulUp hρ hr, infinity_addUp lnOnePlusUp_infinity]
  split
  · exact infinity_addUp (htail _ hdown)
  · exact infinity_addUp (htail _ hup)

/-- A loss so small that the first quotient overflows converts to an infinite one. -/
theorem approximateEpsilon_of_overflow (hρ : ρ.At r) (hr0 : 0 < r) (hr : r < f.infinity)
    (hover : (-Elementary.ln δ / ρ).isInfinite = true) :
    approximateEpsilon ρ δ = .ok infinity := by
  have hstart : (bisectionStart ρ (-Elementary.ln δ)).2 = infinity := by
    obtain ⟨p, hp⟩ := exists_at_neg_of_lt_zero (ln_lt_zero hlib hδ hone)
    obtain ⟨s, hs⟩ := exists_div_at hp hρ hr0 hr
    obtain rfl := hs.isInfinite_iff.mp hover
    have hroot : (infinity : Binary f).sqrt = infinity := by cases f <;> rfl
    change two + (-Elementary.ln δ / ρ).sqrt = _
    rw [hs.eq_infinity, hroot, add_infinity (two_at f) f.one_add_lt_infinity]
  have hmax : (infinity : Binary f).max zero = infinity := by cases f <;> rfl
  rw [approximateEpsilon_of_finite hδ hone hρ hr0 hr, optimalAlpha_eq_infinity hstart,
    epsilonAt_infinity hlib hδ hone hρ hr0, hmax]

end Overflow

end DifferentialPrivacy
