import DifferentialPrivacy.Number.Elementary
import DifferentialPrivacy.Number.Series
import DifferentialPrivacy.Proofs.Number.LeastBounds

set_option autoImplicit false

/-!
# The sign of elementary functions

A logarithm of a number from one on is not negative, and neither are `ln (1 + x)` and `e ^ x - 1` for
an `x` that is not. A library that keeps to this keeps to it after rounding up as well. The sums of
the series do, since none of their terms is negative.
-/
namespace DifferentialPrivacy

/-- The elementary functions have the sign of the exact functions. -/
structure Elementary.KeepsSign [Elementary] : Prop where
  ln {f : Format} (x : Binary f) : Binary.one.le x = true → Binary.zero.le (Elementary.ln x) = true
  lnOnePlus {f : Format} (x : Binary f) :
    Binary.zero.le x = true → Binary.zero.le (Elementary.lnOnePlus x) = true
  expMinusOne {f : Format} (x : Binary f) :
    Binary.zero.le x = true → Binary.zero.le (Elementary.expMinusOne x) = true
  lnOnePlus_nan (f : Format) : Elementary.lnOnePlus (.nan : Binary f) = .nan

namespace Binary

variable {f : Format} {x : Binary f}

theorem nextUp_infinity (f : Format) : (infinity : Binary f).nextUp = infinity := by
  unfold infinity nextUp
  dsimp only
  rw [if_neg f.zero_lt_infinity.ne', if_neg Bool.false_ne_true, dif_neg (Nat.lt_irrefl _)]

theorem zero_le_nextUp (h : zero.le x = true) : zero.le x.nextUp = true := by
  obtain ⟨p, hp⟩ := exists_at_of_zero_le h
  rcases hp.le_infinity.eq_or_lt with rfl | hfinite
  · obtain rfl := hp.eq_infinity
    rwa [nextUp_infinity]
  · exact ((zero_at f).le_iff (hp.nextUp_at hfinite)).mpr (Nat.zero_le _)

section Elementary

variable [Elementary] (hlib : Elementary.KeepsSign)
include hlib

theorem zero_le_lnUp (h : one.le x = true) : zero.le x.lnUp = true := by
  unfold lnUp
  split_ifs
  · exact ((zero_at f).le_iff (zero_at f)).mpr le_rfl
  · exact zero_le_nextUp (hlib.ln x h)

theorem zero_le_expMinusOneUp (h : zero.le x = true) : zero.le x.expMinusOneUp = true := by
  unfold expMinusOneUp
  split_ifs
  · exact h
  · exact zero_le_nextUp (hlib.expMinusOne x h)

theorem zero_le_lnOnePlusUp (h : zero.le x = true) : zero.le x.lnOnePlusUp = true := by
  unfold lnOnePlusUp
  split_ifs
  · exact h
  · exact zero_le_nextUp (hlib.lnOnePlus x h)

theorem nan_lnOnePlusUp : (nan : Binary f).lnOnePlusUp = nan := by
  unfold lnOnePlusUp
  rw [hlib.lnOnePlus_nan]
  rfl

end Elementary

end Binary

/-! ### Series -/

namespace Series

theorem atanhFrom_nonneg {square power n : Int} (hs : 0 ≤ square) (hp : 0 ≤ power) (hn : 0 ≤ n)
    (terms : Nat) : 0 ≤ atanhFrom square terms power n := by
  induction terms generalizing power n with
  | zero => exact le_rfl
  | succ terms ih =>
    have hscale : 0 ≤ scale := Int.natCast_nonneg _
    have hnext := Int.ediv_nonneg (Int.mul_nonneg hp hs) hscale
    exact Int.add_nonneg (Int.ediv_nonneg hp hn) (ih hnext (by omega))

theorem atanh_nonneg {t : Int} (h : 0 ≤ t) : 0 ≤ atanh t :=
  atanhFrom_nonneg (Int.ediv_nonneg (Int.mul_nonneg h h) (Int.natCast_nonneg _)) h (by decide) 64

theorem lnTwo_pos : 0 < lnTwo := by decide

theorem ln_nonneg {num bits : Nat} (h : twoPow bits ≤ num) : 0 ≤ ln num bits := by
  have hnum : num ≠ 0 := ((twoPow_pos bits).trans_le h).ne'
  have htop : bits ≤ num.log2 := (Nat.le_log2 hnum).mpr h
  have hleading : scale ≤ (num <<< precision) >>> num.log2 := by
    rw [Nat.shiftLeft_eq, Nat.shiftRight_eq_div_pow]
    apply Int.ofNat_le.mpr
    rw [Nat.le_div_iff_mul_le (Nat.two_pow_pos _), Nat.mul_comm]
    exact Nat.mul_le_mul_right _ (Nat.log2_self_le hnum)
  have hscale : 0 ≤ scale := Int.natCast_nonneg _
  have hratio := Int.ediv_nonneg (Int.mul_nonneg (Int.sub_nonneg_of_le hleading) hscale)
    (Int.add_nonneg (hscale.trans hleading) hscale)
  unfold ln
  dsimp only
  refine Int.add_nonneg (Int.mul_nonneg (by decide) (atanh_nonneg hratio)) ?_
  exact Int.mul_nonneg (by omega) lnTwo_pos.le

theorem expFrom_nonneg {r term n : Int} (hr : 0 ≤ r) (ht : 0 ≤ term) (hn : 0 ≤ n) (terms : Nat) :
    0 ≤ expFrom r terms term n := by
  induction terms generalizing term n with
  | zero => exact le_rfl
  | succ terms ih =>
    have hscale : 0 ≤ scale := Int.natCast_nonneg _
    have hnext := Int.ediv_nonneg (Int.ediv_nonneg (Int.mul_nonneg ht hr) hscale) hn
    exact Int.add_nonneg ht (ih hnext (by omega))

theorem scale_le_exp {x : Int} (h : 0 ≤ x) : scale ≤ exp x := by
  have hk := Int.ediv_nonneg h lnTwo_pos.le
  have hscale : 0 ≤ scale := Int.natCast_nonneg _
  unfold exp
  dsimp only
  rw [if_neg (Int.not_lt.mpr hk), Int.shiftLeft_eq]
  have hr := Int.emod_nonneg x lnTwo_pos.ne'
  have hrest : scale ≤ expFrom (x % lnTwo) 64 scale 1 := by
    have hnext := Int.ediv_nonneg (Int.ediv_nonneg (Int.mul_nonneg hscale hr) hscale) Int.one_nonneg
    exact Int.le_add_of_nonneg_right (expFrom_nonneg hr hnext (by decide) 63)
  refine hrest.trans (le_mul_of_one_le_right (hscale.trans hrest) ?_)
  exact_mod_cast Nat.one_le_two_pow

end Series

namespace Binary

variable {f : Format} {x : Binary f}

theorem zero_le_ofUnits (f : Format) {num : Int} (h : 0 ≤ num) (den : Nat) :
    zero.le (ofUnits f false num den) = true := by
  unfold ofUnits
  split_ifs
  · exact ((zero_at f).le_iff (zero_at_of_sign f false)).mpr le_rfl
  · unfold ofRatio
    rw [decide_eq_false (Int.not_lt.mpr h)]
    exact ((zero_at f).le_iff (positive_at _)).mpr (Nat.zero_le _)

theorem zero_le_lnOnePlus (h : zero.le x = true) : zero.le x.lnOnePlus = true := by
  obtain ⟨p, hp⟩ := exists_at_of_zero_le h
  have hunit := twoPow_pos f.unitBits
  have hunits := hp.units_eq
  obtain ⟨negative, hle, rfl, hzero⟩ := hp
  unfold lnOnePlus
  dsimp only
  split_ifs with hinf hsign hbelow hends _
  · exact absurd (hinf.symm.trans (hzero hsign)) f.zero_lt_infinity.ne'
  · exact h
  · omega
  · omega
  · exact h
  · apply zero_le_ofUnits
    refine Int.mul_nonneg (Series.ln_nonneg ?_) (Int.natCast_nonneg _)
    omega

theorem zero_le_expMinusOne (h : zero.le x = true) : zero.le x.expMinusOne = true := by
  obtain ⟨p, hp⟩ := exists_at_of_zero_le h
  have hunits := hp.units_eq
  obtain ⟨negative, hle, rfl, hzero⟩ := hp
  unfold expMinusOne
  dsimp only
  split_ifs with hlarge hsign _
  · have hzeroUnits : f.units p = 0 := by rw [hzero hsign, f.units_zero]
    have := twoPow_pos f.unitBits
    omega
  · exact ((zero_at f).le_iff (infinity_at f)).mpr (Nat.zero_le _)
  · exact h
  · apply zero_le_ofUnits
    refine Int.mul_nonneg (Int.sub_nonneg_of_le (Series.scale_le_exp ?_)) (Int.natCast_nonneg _)
    refine Int.ediv_nonneg (Int.mul_nonneg ?_ (Int.natCast_nonneg _)) (Int.natCast_nonneg _)
    omega

theorem zero_le_sub_one (h : one.le x = true) : zero.le (x - one) = true := by
  have hone := ((zero_at f).le_iff (one_at f)).mpr (Nat.zero_le _)
  obtain ⟨_, p, -, hp, -⟩ := ascending_iff.mpr ⟨hone, h⟩
  rcases hp.le_infinity.eq_or_lt with rfl | hfinite
  · obtain rfl := hp.eq_infinity
    have hend : (infinity : Binary f) - one = infinity := by
      have hneg : -(one : Binary f) = signed true f.one f.one_le_infinity := rfl
      change add infinity (-one) = _
      rw [hneg]
      unfold add infinity
      dsimp only
      rw [if_pos rfl, if_neg (fun h => f.one_lt_infinity.ne h.1)]
    rw [hend]
    exact ((zero_at f).le_iff hp).mpr (Nat.zero_le _)
  · have hle := f.units_strictMono.le_iff_le.mpr (((one_at f).le_iff hp).mp h)
    exact ((zero_at f).le_iff (sub_at hp (one_at f) hfinite f.one_lt_infinity hle)).mpr (Nat.zero_le _)

end Binary

/-- The elementary functions of the series alone. -/
@[reducible]
def Elementary.series : Elementary where
  ln x := (x - .one).lnOnePlus
  exp x := x.expMinusOne + .one
  lnOnePlus := Binary.lnOnePlus
  expMinusOne := Binary.expMinusOne
  pow x y := (y * (x - .one).lnOnePlus).expMinusOne + .one

theorem Elementary.series_keepsSign : @Elementary.KeepsSign .series :=
  @KeepsSign.mk .series (fun _ h => Binary.zero_le_lnOnePlus (Binary.zero_le_sub_one h))
    (fun _ => Binary.zero_le_lnOnePlus) (fun _ => Binary.zero_le_expMinusOne) fun _ => rfl

end DifferentialPrivacy
