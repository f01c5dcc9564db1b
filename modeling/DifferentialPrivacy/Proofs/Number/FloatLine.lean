import DifferentialPrivacy.Number.Directed
import DifferentialPrivacy.Proofs.Number.ExactValue
import DifferentialPrivacy.Proofs.Number.NumberLine
import Mathlib.Data.EReal.Operations
import Mathlib.Data.Int.ConditionallyCompleteOrder

set_option autoImplicit false

/-!
# The float line

The exact values of a format, its infinities included, lie on the extended real line in the order of
their ordinals. A step up is one more on the ordinals and a step down is one less, until the end of the
line.
-/
namespace DifferentialPrivacy

namespace Format

variable {f : Format} {m n : Int}

/-- The distance from zero of an ordinal in units, with its sign. -/
def signedUnits (f : Format) (n : Int) : Int := n.sign * f.units n.natAbs

theorem signedUnits_natCast (f : Format) (p : Nat) : f.signedUnits p = f.units p := by
  unfold signedUnits
  rcases Nat.eq_zero_or_pos p with rfl | hp
  · rw [Nat.cast_zero, Int.sign_zero, zero_mul, units_zero, Nat.cast_zero]
  · rw [Int.sign_natCast_of_ne_zero hp.ne', Int.natAbs_natCast, one_mul]

theorem signedUnits_neg (f : Format) (n : Int) : f.signedUnits (-n) = -f.signedUnits n := by
  unfold signedUnits
  rw [Int.sign_neg, Int.natAbs_neg, neg_mul]

theorem signedUnits_strictMono (f : Format) : StrictMono f.signedUnits := by
  apply strictMono_int_of_lt_succ
  intro n
  have hunits : ∀ p, f.units p < f.units (p + 1) := fun p => f.units_strictMono p.lt_succ_self
  rcases lt_or_ge n 0 with hn | hn
  · -- Below zero the distance shrinks on the way up.
    obtain ⟨p, rfl⟩ : ∃ p : Nat, n = -(p + 1 : Nat) := ⟨n.natAbs - 1, by omega⟩
    have hup : -((p + 1 : Nat) : Int) + 1 = -(p : Int) := by omega
    rw [hup, signedUnits_neg, signedUnits_neg, signedUnits_natCast, signedUnits_natCast,
      neg_lt_neg_iff, Nat.cast_lt]
    exact hunits p
  · obtain ⟨p, rfl⟩ := Int.eq_ofNat_of_zero_le hn
    have hup : (p : Int) + 1 = (p + 1 : Nat) := (Nat.cast_succ p).symm
    rw [hup, signedUnits_natCast, signedUnits_natCast, Nat.cast_lt]
    exact hunits p

/-- The ordinals of a format, from one infinity to the other. -/
def ordinals (f : Format) : Set Int := Set.Icc (-f.infinity) f.infinity

/-- The exact value at an ordinal. -/
noncomputable def valueAt (f : Format) (n : Int) : EReal :=
  if n ≤ -f.infinity then ⊥
  else if f.infinity ≤ n then ⊤
  else ((f.signedUnits n / twoPow f.unitBits : ℚ) : ℝ)

theorem valueAt_bot (f : Format) : f.valueAt (-f.infinity) = ⊥ := if_pos le_rfl

theorem valueAt_top (f : Format) : f.valueAt f.infinity = ⊤ := by
  have hpos := f.zero_lt_infinity
  unfold valueAt
  rw [if_neg (by omega), if_pos le_rfl]

theorem valueAt_of_lt (hlow : -f.infinity < n) (hhigh : n < f.infinity) :
    f.valueAt n = ((f.signedUnits n / twoPow f.unitBits : ℚ) : ℝ) := by
  unfold valueAt
  rw [if_neg (by omega), if_neg (by omega)]

theorem valueAt_strictMonoOn (f : Format) : StrictMonoOn f.valueAt f.ordinals := by
  rintro m ⟨hm, -⟩ n ⟨-, hn⟩ hmn
  have hunit := Binary.twoPow_unitBits_pos f
  rcases hm.eq_or_lt with rfl | hm
  · rw [valueAt_bot]
    rcases hn.eq_or_lt with rfl | hn
    · rw [valueAt_top]
      exact bot_lt_top
    · rw [valueAt_of_lt hmn hn]
      exact EReal.bot_lt_coe _
  · rw [valueAt_of_lt hm (hmn.trans_le hn)]
    rcases hn.eq_or_lt with rfl | hn
    · rw [valueAt_top]
      exact EReal.coe_lt_top _
    · rw [valueAt_of_lt (hm.trans hmn) hn, EReal.coe_lt_coe_iff, Rat.cast_lt,
        div_lt_div_iff_of_pos_right hunit, Int.cast_lt]
      exact f.signedUnits_strictMono hmn

theorem valueAt_zero (f : Format) : f.valueAt 0 = 0 := by
  have hpos := f.zero_lt_infinity
  rw [valueAt_of_lt (by omega) (by omega)]
  simp [signedUnits]

theorem zero_mem_ordinals (f : Format) : 0 ∈ f.ordinals := by
  have hpos := f.zero_lt_infinity
  constructor <;> omega

theorem infinity_mem_ordinals (f : Format) : (f.infinity : Int) ∈ f.ordinals := by
  constructor <;> omega

theorem neg_infinity_mem_ordinals (f : Format) : (-f.infinity : Int) ∈ f.ordinals := by
  constructor <;> omega

theorem valueAt_lt_iff (hm : m ∈ f.ordinals) (hn : n ∈ f.ordinals) :
    f.valueAt m < f.valueAt n ↔ m < n := f.valueAt_strictMonoOn.lt_iff_lt hm hn

theorem valueAt_le_iff (hm : m ∈ f.ordinals) (hn : n ∈ f.ordinals) :
    f.valueAt m ≤ f.valueAt n ↔ m ≤ n := f.valueAt_strictMonoOn.le_iff_le hm hn

theorem valueAt_inj (hm : m ∈ f.ordinals) (hn : n ∈ f.ordinals) :
    f.valueAt m = f.valueAt n ↔ m = n := f.valueAt_strictMonoOn.injOn.eq_iff hm hn

theorem zero_lt_valueAt_iff (hn : n ∈ f.ordinals) : 0 < f.valueAt n ↔ 0 < n := by
  rw [← f.valueAt_zero, valueAt_lt_iff f.zero_mem_ordinals hn]

theorem valueAt_lt_zero_iff (hn : n ∈ f.ordinals) : f.valueAt n < 0 ↔ n < 0 := by
  rw [← f.valueAt_zero, valueAt_lt_iff hn f.zero_mem_ordinals]

theorem valueAt_lt_top_iff (hn : n ∈ f.ordinals) : f.valueAt n < ⊤ ↔ n < f.infinity := by
  rw [← f.valueAt_top, valueAt_lt_iff hn f.infinity_mem_ordinals]

theorem bot_lt_valueAt_iff (hn : n ∈ f.ordinals) : ⊥ < f.valueAt n ↔ -f.infinity < n := by
  rw [← f.valueAt_bot, valueAt_lt_iff f.neg_infinity_mem_ordinals hn]

theorem valueAt_neg (hn : n ∈ f.ordinals) : f.valueAt (-n) = -f.valueAt n := by
  obtain ⟨hlow, hhigh⟩ := hn
  rcases hlow.eq_or_lt with rfl | hlow
  · rw [valueAt_bot, neg_neg, valueAt_top, EReal.neg_bot]
  · rcases hhigh.eq_or_lt with rfl | hhigh
    · rw [valueAt_top, valueAt_bot, EReal.neg_top]
    · rw [valueAt_of_lt hlow hhigh, valueAt_of_lt (by omega) (by omega), signedUnits_neg,
        Int.cast_neg, neg_div, Rat.cast_neg, EReal.coe_neg]

end Format

namespace Binary

variable {f : Format} {x y : Binary f} {m n : Int}

/-- The exact value on the extended line; not-a-number has none. -/
noncomputable def extended? : Binary f → Option EReal
  | nan => none
  | signed negative p le =>
    some (if p = f.infinity then if negative then ⊥ else ⊤ else ((signed negative p le).value : ℝ))

theorem mem_ordinals (h : x.ordinal? = some n) : n ∈ f.ordinals := by
  cases x with
  | nan => cases h
  | signed negative p hp =>
    obtain rfl := Option.some.inj h
    constructor <;> split <;> omega

theorem exists_positive_of_ordinal (h : x.ordinal? = some n) (hn : 0 < n) :
    ∃ p hp, x = signed false p hp ∧ n = p := by
  cases x with
  | nan => cases h
  | signed negative p hp =>
    obtain rfl := Option.some.inj h
    cases negative with
    | false => exact ⟨p, hp, rfl, rfl⟩
    | true => exact absurd (Int.natCast_nonneg p) (not_le.mpr (Int.neg_pos.mp hn))

theorem exists_negative_of_ordinal (h : x.ordinal? = some n) (hn : n < 0) :
    ∃ p hp, x = signed true p hp ∧ n = -p := by
  cases x with
  | nan => cases h
  | signed negative p hp =>
    obtain rfl := Option.some.inj h
    cases negative with
    | false => exact absurd (Int.natCast_nonneg p) (not_le.mpr hn)
    | true => exact ⟨p, hp, rfl, rfl⟩

theorem units_eq_signedUnits (h : x.ordinal? = some n) : x.units = f.signedUnits n := by
  cases x with
  | nan => cases h
  | signed negative p hp =>
    obtain rfl := Option.some.inj h
    cases negative with
    | false => exact (f.signedUnits_natCast p).symm
    | true => exact ((f.signedUnits_neg p).trans (congrArg _ (f.signedUnits_natCast p))).symm

theorem extended?_eq (x : Binary f) : x.extended? = x.ordinal?.map f.valueAt := by
  cases x with
  | nan => rfl
  | signed negative p hp =>
    refine congrArg some ?_
    rcases hp.eq_or_lt with rfl | hlt
    · rw [if_pos rfl]
      cases negative with
      | false => exact f.valueAt_top.symm
      | true => exact f.valueAt_bot.symm
    · rw [if_neg hlt.ne, Format.valueAt_of_lt (by split <;> omega) (by split <;> omega)]
      unfold value
      rw [units_eq_signedUnits rfl]

theorem extended?_eq_some_iff {v : EReal} :
    x.extended? = some v ↔ ∃ n, x.ordinal? = some n ∧ f.valueAt n = v := by
  rw [extended?_eq, Option.map_eq_some_iff]

theorem extended?_eq_none_iff : x.extended? = none ↔ x = nan := by
  cases x with
  | nan => exact ⟨fun _ => rfl, fun _ => rfl⟩
  | signed negative p hp => exact ⟨fun h => (by cases h), fun h => (by cases h)⟩

/-- Numbers compare as their exact values do. -/
theorem lt_iff_extended {v u : EReal} (hx : x.extended? = some v) (hy : y.extended? = some u) :
    x.lt y = true ↔ v < u := by
  obtain ⟨m, hm, rfl⟩ := extended?_eq_some_iff.mp hx
  obtain ⟨n, hn, rfl⟩ := extended?_eq_some_iff.mp hy
  rw [lt_iff_of_ordinal hm hn, Format.valueAt_lt_iff (mem_ordinals hm) (mem_ordinals hn)]

/-! ### Steps -/

theorem neg_eq_nan_iff : -x = nan ↔ x = nan := by
  cases x with
  | nan => exact ⟨fun _ => rfl, fun _ => rfl⟩
  | signed negative p hp => exact ⟨fun h => (by cases h), fun h => (by cases h)⟩

theorem nextUp_eq_nan_iff : x.nextUp = nan ↔ x = nan := by
  cases x with
  | nan => exact ⟨fun _ => rfl, fun _ => rfl⟩
  | signed negative p hp =>
    refine ⟨fun h => ?_, fun h => (by cases h)⟩
    unfold nextUp at h
    dsimp only at h
    split_ifs at h

theorem nextDown_eq_nan_iff : x.nextDown = nan ↔ x = nan := by
  unfold nextDown
  rw [neg_eq_nan_iff, nextUp_eq_nan_iff, neg_eq_nan_iff]

theorem ordinal?_neg (x : Binary f) : (-x).ordinal? = x.ordinal?.map (- ·) := by
  cases x with
  | nan => rfl
  | signed negative p hp =>
    cases negative with
    | false => rfl
    | true => exact congrArg some (neg_neg (p : Int)).symm

theorem ordinal?_nextUp (h : x.ordinal? = some n) (hn : n < f.infinity) :
    x.nextUp.ordinal? = some (n + 1) := by
  cases x with
  | nan => cases h
  | signed negative p hp =>
    obtain rfl := Option.some.inj h
    unfold nextUp
    dsimp only
    split
    · rename_i h0
      subst h0
      cases negative <;> rfl
    · rename_i h0
      cases negative with
      | false =>
        have hlt : p < f.infinity := by simpa using hn
        rw [if_neg Bool.false_ne_true, dif_pos hlt]
        rfl
      | true =>
        rw [if_pos rfl]
        refine congrArg some ?_
        simp only [if_true]
        omega

theorem ordinal?_nextDown (h : x.ordinal? = some n) (hn : -f.infinity < n) :
    x.nextDown.ordinal? = some (n - 1) := by
  have hneg : (-x).ordinal? = some (-n) := by rw [ordinal?_neg, h, Option.map_some]
  unfold nextDown
  rw [ordinal?_neg, ordinal?_nextUp hneg (by omega), Option.map_some]
  exact congrArg some (by omega)

end Binary
end DifferentialPrivacy
