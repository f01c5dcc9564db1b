import DifferentialPrivacy.Proofs.Number.LeastBounds

set_option autoImplicit false

/-!
# Directed differences as tightest bounds

The error of the nearest difference of two numbers that are not negative is computed exactly,
whichever is the larger. So a difference that is rounded up is the least number of the format that is
no less than the exact one, and a difference that is rounded down the greatest that is no more.
-/
namespace DifferentialPrivacy

namespace Format

variable {f : Format} {n p q s t : Nat} {a b : Int}

theorem Holds.neg (h : f.Holds a) : f.Holds (-a) := by
  obtain ⟨p, hp, ha⟩ := h
  exact ⟨p, hp, a.natAbs_neg.trans ha⟩

theorem holds_sub_comm (h : f.Holds (a - b)) : f.Holds (b - a) := Int.neg_sub a b ▸ h.neg

/-! ### What the nearest difference falls short by -/

section Difference

variable (hp : p < f.infinity) (hq : q < f.infinity) (hqp : q ≤ p)
  (hdiff : f.nearest (f.units p - f.units q) 1 = s)

include hdiff in
theorem nearest_sub_le : s ≤ p := hdiff ▸ nearest_le Nat.one_pos (by omega)

include hp hqp hdiff

/-- Only a difference of two amounts that are far apart may be rounded. -/
theorem nearest_sub_cases : f.units p = f.units s + f.units q ∨
    2 * f.units q < f.units p ∧ q ≤ s ∧ f.units p ≤ 2 * f.units s := by
  have hle := f.units_strictMono.le_iff_le.mpr hqp
  by_cases hexact : ∃ r ≤ p, f.units r = f.units p - f.units q
  · obtain ⟨r, hr, hunits⟩ := hexact
    have hrs := nearest_units (f := f) Nat.one_pos (hr.trans hp.le)
    rw [Nat.mul_one, hunits, hdiff] at hrs
    rw [hrs]
    omega
  · right
    have hfar : 2 * f.units q < f.units p := by
      by_contra hnear
      obtain ⟨r, hr, hunits⟩ := exists_units_eq_of_dvd (p := q) (n := f.units p - f.units q)
        (Nat.dvd_sub (spacing_dvd_units_of_le hqp) (f.spacing_dvd_units q)) (by omega)
      exact hexact ⟨r, hr.trans hqp, hunits⟩
    have hwide : f.spacing p ≠ 1 := by
      intro hone
      obtain ⟨r, hr, hunits⟩ := exists_units_eq_of_dvd (p := p) (n := f.units p - f.units q)
        (hone ▸ Nat.one_dvd _) (by omega)
      exact hexact ⟨r, hr, hunits⟩
    obtain ⟨half, hhalf⟩ := exists_two_mul_units_eq hwide
    have hhp : half ≤ p := f.units_strictMono.le_iff_le.mp (by omega)
    have hhs : half ≤ s := hdiff ▸ le_nearest Nat.one_pos (hhp.trans hp.le) (by omega)
    have hunits := f.units_strictMono.le_iff_le.mpr hhs
    refine ⟨hfar, ?_, by omega⟩
    exact hdiff ▸ le_nearest Nat.one_pos (hqp.trans hp.le) (by omega)

include hq

theorem holds_difference_error : f.Holds (f.units p - f.units q - f.units s) := by
  have hle := f.units_strictMono.le_iff_le.mpr hqp
  have hsp := nearest_sub_le hdiff
  rcases nearest_sub_cases hp hqp hdiff with hexact | ⟨-, hqs, -⟩
  · rw [hexact, Nat.cast_add, Int.add_sub_cancel, sub_self]
    exact holds_zero f
  · obtain ⟨hlow, hhigh⟩ := nearest_within (p := p) (k := f.units q) hdiff (hsp.trans_lt hp)
      (by omega) (by omega)
    refine holds_of_dvd hq (Int.dvd_sub (Int.dvd_sub ?_ ?_) ?_) (by omega)
    · exact intCast_spacing_dvd hqp
    · exact intCast_spacing_dvd le_rfl
    · exact intCast_spacing_dvd hqs

theorem holds_difference_part : f.Holds (f.units s - f.units p) := by
  have hle := f.units_strictMono.le_iff_le.mpr (nearest_sub_le hdiff)
  rcases nearest_sub_cases hp hqp hdiff with hexact | ⟨-, -, hclose⟩
  · rw [hexact, Nat.cast_add, sub_add_cancel_left]
    exact (holds_units hq).neg
  · exact holds_sub ((nearest_sub_le hdiff).trans_lt hp) hp (by omega) (by omega)

/-- Here the part `t` of the difference that came from `p` may be rounded, but all that is computed
    from it is exact. -/
theorem difference_parts_hold (ht : f.nearest (f.units s + f.units q) 1 = t)
    (htinf : t < f.infinity) : f.Holds (f.units t - f.units s) ∧
      f.Holds (f.units q - (f.units t - f.units s)) ∧ f.Holds (f.units p - f.units t) := by
  have hs := (nearest_sub_le hdiff).trans_lt hp
  obtain ⟨hst, -⟩ := le_nearest_sum hs hq ht
  have hust := f.units_strictMono.le_iff_le.mpr hst
  have herror := holds_sum_error hs hq htinf ht
  rcases nearest_sub_cases hp hqp hdiff with hexact | ⟨hfar, hqs, hclose⟩
  · have htp := nearest_units (f := f) Nat.one_pos hp.le
    rw [Nat.mul_one, hexact, ht] at htp
    have hrest : (f.units t - f.units s : Int) = f.units q := by
      rw [htp]
      omega
    rw [hrest, sub_self, htp, sub_self]
    exact ⟨holds_units hq, holds_zero f, holds_zero f⟩
  · have huqs := f.units_strictMono.le_iff_le.mpr hqs
    have husp := f.units_strictMono.le_iff_le.mpr (nearest_sub_le hdiff)
    obtain ⟨s', hs'⟩ := f.exists_units_eq_two_mul s
    have hts : t ≤ s' := ht ▸ nearest_le Nat.one_pos (by omega)
    have huts := f.units_strictMono.le_iff_le.mpr hts
    refine ⟨holds_sub htinf hs (by omega) (by omega), ?_, holds_sub hp htinf (by omega) (by omega)⟩
    have hsplit : (f.units q - (f.units t - f.units s) : Int) =
        f.units s + f.units q - f.units t := by omega
    exact hsplit ▸ herror

end Difference

end Format

namespace Binary

variable {f : Format} {x y : Binary f} {n p q s t : Nat}

/-! ### Differences that are negative -/

theorem neg_add_at (hx : x.isFinite = true) (hy : y.isFinite = true)
    (h : x.units + y.units = -(n : Int)) : (-(x + y)).At (f.nearest n 1) := by
  obtain ⟨zeroSign, hsum⟩ := add_of_finite hx hy
  rw [hsum, h]
  unfold ofUnits
  split
  · rename_i h0
    obtain rfl : n = 0 := by omega
    rw [(Format.nearest_eq_zero_iff Nat.one_pos).mpr (by omega)]
    exact zero_at_of_sign f (!zeroSign)
  · rename_i h0
    have hneg : -(n : Int) < 0 := by omega
    unfold ofRatio
    rw [decide_eq_true hneg, Int.natAbs_neg, Int.natAbs_natCast]
    exact positive_at _

/-- The next number above a negative one is a step nearer to zero. -/
theorem neg_nextUp_at (h : (-x).At (p + 1)) : (-x.nextUp).At p := by
  obtain ⟨negative, hp, hx, hzero⟩ := h
  cases x with
  | nan => cases hx
  | signed sign r hr =>
    injection hx with hsign hrp
    obtain rfl := hrp
    have hsigned : sign = true := by
      cases sign with
      | true => rfl
      | false => exact absurd (hzero hsign.symm) p.succ_ne_zero
    subst hsigned
    exact positive_at _

/-! ### The error of a difference -/

section Difference

variable (hx : x.At p) (hy : y.At q) (hp : p < f.infinity) (hq : q < f.infinity) (hqp : q ≤ p)
  (hdiff : f.nearest (f.units p - f.units q) 1 = s)
include hx hy hp hq hqp hdiff

theorem units_sumError_neg : (sumError x (-y)).isFinite = true ∧
    (sumError x (-y)).units = f.units p - f.units q - f.units s := by
  have hsum : (x + -y).At s := hdiff ▸ sub_at hx hy hp hq (f.units_strictMono.le_iff_le.mpr hqp)
  have hs := (Format.nearest_sub_le hdiff).trans_lt hp
  have hxf := hx.isFinite_iff.mpr hp
  have hyf := (isFinite_neg y).trans (hy.isFinite_iff.mpr hq)
  have hyu : (-y).units = -f.units q := (units_neg y).trans (congrArg _ hy.units_eq)
  have hsf := hsum.isFinite_iff.mpr hs
  have hpart := Format.holds_difference_part hp hq hqp hdiff
  have herror := Format.holds_difference_error hp hq hqp hdiff
  rw [← hsum.units_eq, ← hx.units_eq] at hpart
  obtain ⟨hpartFinite, hpartUnits⟩ := units_sub hsf hxf hpart
  have hrest : (x + -y).units - (x + -y - x).units = f.units p := by
    rw [hpartUnits, hx.units_eq]
    omega
  have hlost : x.units - ((x + -y).units - (x + -y - x).units) = 0 := by
    rw [hrest, hx.units_eq, sub_self]
  have hlast : (-y).units - (x + -y - x).units = f.units p - f.units q - f.units s := by
    rw [hpartUnits, hyu, hsum.units_eq, hx.units_eq]
    omega
  have hall : x.units + (-y).units - (x + -y).units = f.units p - f.units q - f.units s := by
    rw [hx.units_eq, hyu, hsum.units_eq]
    omega
  rw [← hall]
  exact units_sumError_of_holds hxf hyf hsf hpartFinite (hrest ▸ Format.holds_units hp)
    (hlost ▸ f.holds_zero) (hlast ▸ herror) (hall ▸ herror)

theorem units_sumError_of_le (hroom : f.nearest (2 * f.units p) 1 < f.infinity) :
    (sumError y (-x)).isFinite = true ∧
      (sumError y (-x)).units = f.units q - f.units p + f.units s := by
  have hle := f.units_strictMono.le_iff_le.mpr hqp
  have hsp := f.units_strictMono.le_iff_le.mpr (Format.nearest_sub_le hdiff)
  have hs := (Format.nearest_sub_le hdiff).trans_lt hp
  have hyf := hy.isFinite_iff.mpr hq
  have hxf := (isFinite_neg x).trans (hx.isFinite_iff.mpr hp)
  have hxu : (-x).units = -f.units p := (units_neg x).trans (congrArg _ hx.units_eq)
  have hsum : (-(y + -x)).At s := by
    rw [← hdiff]
    apply neg_add_at hyf hxf
    rw [hy.units_eq, hxu]
    omega
  have hsumFinite := (isFinite_neg _).symm.trans (hsum.isFinite_iff.mpr hs)
  have hsumUnits : (y + -x).units = -f.units s := by
    have hunits := hsum.units_eq
    rw [units_neg] at hunits
    omega
  generalize ht : f.nearest (f.units s + f.units q) 1 = t
  have htinf : t < f.infinity :=
    ht ▸ (Format.nearest_mono Nat.one_pos (by omega)).trans_lt hroom
  have hpart : (-(y + -x - y)).At t := by
    rw [← ht]
    apply neg_add_at hsumFinite ((isFinite_neg y).trans hyf)
    rw [hsumUnits, units_neg, hy.units_eq]
    omega
  have hpartFinite := (isFinite_neg _).symm.trans (hpart.isFinite_iff.mpr htinf)
  have hpartUnits : (y + -x - y).units = -f.units t := by
    have hunits := hpart.units_eq
    rw [units_neg] at hunits
    omega
  obtain ⟨hrest, hlost, hlast⟩ := Format.difference_parts_hold hp hq hqp hdiff ht htinf
  have hrestEq : (y + -x).units - (y + -x - y).units = f.units t - f.units s := by omega
  have hlostEq : y.units - ((y + -x).units - (y + -x - y).units) =
      f.units q - (f.units t - f.units s) := by rw [hrestEq, hy.units_eq]
  have hlastEq : (-x).units - (y + -x - y).units = f.units t - f.units p := by omega
  have hall : y.units + (-x).units - (y + -x).units = f.units q - f.units p + f.units s := by
    rw [hy.units_eq, hxu, hsumUnits]
    omega
  have herror := (Format.holds_difference_error hp hq hqp hdiff).neg
  rw [show (-(f.units p - f.units q - f.units s) : Int) = f.units q - f.units p + f.units s by omega,
    ← hall] at herror
  rw [← hall]
  exact units_sumError_of_holds hyf hxf hsumFinite hpartFinite (hrestEq ▸ hrest) (hlostEq ▸ hlost)
    (hlastEq ▸ Format.holds_sub_comm hlast) herror

end Difference

/-! ### Bounds on differences -/

section Bounds

variable (hx : x.At p) (hy : y.At q) (hp : p < f.infinity) (hq : q < f.infinity) (hqp : q ≤ p)
include hx hy hp hq hqp

/-- The upward difference is the first position that is no less than the exact difference. -/
theorem subUp_at : ∃ u, (x.subUp y).At u ∧ f.units p ≤ f.units q + f.units u ∧
    ∀ r, f.units p ≤ f.units q + f.units r → u ≤ r := by
  have hle := f.units_strictMono.le_iff_le.mpr hqp
  generalize hdiff : f.nearest (f.units p - f.units q) 1 = s
  have hs := (Format.nearest_sub_le hdiff).trans_lt hp
  have hsum : (x + -y).At s := hdiff ▸ sub_at hx hy hp hq hle
  obtain ⟨hfinite, hunits⟩ := units_sumError_neg hx hy hp hq hqp hdiff
  have hsteps : zero.lt (sumError x (-y)) = true ↔ f.units s + f.units q < f.units p := by
    rw [zero_lt_iff hfinite, hunits]
    omega
  unfold subUp addUp
  dsimp only
  by_cases hshort : f.units s + f.units q < f.units p
  · have hnext := Format.lt_units_nearest_succ Nat.one_pos (hdiff.symm ▸ hs)
    rw [hdiff] at hnext
    rw [if_pos ⟨hsum.isFinite_iff.mpr hs, hsteps.mpr hshort⟩]
    exact ⟨s + 1, hsum.nextUp_at hs, by omega,
      fun r hr => f.units_strictMono.lt_iff_lt.mp (by omega)⟩
  · rw [if_neg (fun h => hshort (hsteps.mp h.2))]
    exact ⟨s, hsum, by omega, fun r hr => hdiff ▸ Format.nearest_le Nat.one_pos (by omega)⟩

/-- The downward difference is the last position that is no more than the exact difference. -/
theorem subDown_at (hroom : f.nearest (2 * f.units p) 1 < f.infinity) :
    ∃ u, (x.subDown y).At u ∧ f.units u + f.units q ≤ f.units p ∧
      ∀ r, f.units r + f.units q ≤ f.units p → r ≤ u := by
  have hle := f.units_strictMono.le_iff_le.mpr hqp
  generalize hdiff : f.nearest (f.units p - f.units q) 1 = s
  have hs := (Format.nearest_sub_le hdiff).trans_lt hp
  have hsum : (-(y + -x)).At s := by
    rw [← hdiff]
    apply neg_add_at (hy.isFinite_iff.mpr hq) ((isFinite_neg x).trans (hx.isFinite_iff.mpr hp))
    rw [hy.units_eq, units_neg, hx.units_eq]
    omega
  have hsumFinite := (isFinite_neg _).symm.trans (hsum.isFinite_iff.mpr hs)
  obtain ⟨hfinite, hunits⟩ := units_sumError_of_le hx hy hp hq hqp hdiff hroom
  have hsteps : zero.lt (sumError y (-x)) = true ↔ f.units p < f.units s + f.units q := by
    rw [zero_lt_iff hfinite, hunits]
    omega
  unfold subDown addUp
  dsimp only
  by_cases hlong : f.units p < f.units s + f.units q
  · rw [if_pos ⟨hsumFinite, hsteps.mpr hlong⟩]
    obtain ⟨u, rfl⟩ : ∃ u, s = u + 1 := by
      apply Nat.exists_eq_succ_of_ne_zero
      rintro rfl
      rw [f.units_zero] at hlong
      omega
    refine ⟨u, neg_nextUp_at hsum, ?_, fun r hr => ?_⟩
    · by_contra hover
      have hlow : u + 1 ≤ u := hdiff ▸ Format.nearest_le Nat.one_pos (by omega)
      omega
    · have hlt : r < u + 1 := f.units_strictMono.lt_iff_lt.mp (by omega)
      exact Nat.lt_succ_iff.mp hlt
  · rw [if_neg (fun h => hlong (hsteps.mp h.2))]
    refine ⟨s, hsum, by omega, fun r hr => ?_⟩
    have hrp : r ≤ p := f.units_strictMono.le_iff_le.mp (by omega)
    exact hdiff ▸ Format.le_nearest Nat.one_pos (hrp.trans hp.le) (by omega)

end Bounds

end Binary
end DifferentialPrivacy
