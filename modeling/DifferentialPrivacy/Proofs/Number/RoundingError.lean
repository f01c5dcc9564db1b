import DifferentialPrivacy.Proofs.Number.ElementaryAccuracy
import DifferentialPrivacy.Proofs.Number.Midpoint
import DifferentialPrivacy.Proofs.Number.RoundingScale

set_option autoImplicit false

/-!
# The error of rounded operations

An operation differs from the exact one by a part of the result that the fraction of the format sets,
or by a unit of the format where that is more. The step that a directed operation may add is no larger
than that again. Results stay finite as long as the exact ones are well inside the format.
-/
namespace DifferentialPrivacy

namespace Binary

variable {f : Format} {x y z : Binary f} {p q : Nat} {v : ℝ}

theorem real_value_eq (x : Binary f) : (x.value : ℝ) = x.units * f.quantum := by
  unfold value Format.quantum
  push_cast
  rw [div_eq_mul_inv]

theorem At.real_value_le (hx : x.At p) (hp : p < f.infinity) : x.value ≤ 4 * f.range := by
  rw [hx.real_value_eq, div_le_iff₀ (real_twoPow_unitBits_pos f), f.four_mul_range_eq]
  exact_mod_cast (f.units_strictMono hp).le

/-- `z` is `v`, rounded: it is finite unless `v` is large, and then it is near to `v`. -/
structure Rounds (z : Binary f) (v : ℝ) : Prop where
  isFinite : |v| ≤ f.range → z.isFinite = true
  near : z.isFinite = true → |(z.value : ℝ) - v| ≤ 3 * f.margin v

theorem rounds_zero (hz : z.isFinite = true) (hvalue : z.value = 0) : z.Rounds 0 := by
  refine ⟨fun _ => hz, fun _ => ?_⟩
  rw [hvalue, Rat.cast_zero, sub_zero, abs_zero]
  exact mul_nonneg (by norm_num) (f.margin_nonneg 0)

/-- What is not very small is off by a part of its size only. -/
theorem Rounds.relative (h : z.Rounds v) (hz : z.isFinite = true) (hv : f.precision ^ 4 ≤ |v|) :
    |(z.value : ℝ) - v| ≤ 4 * (f.precision * |v|) := by
  have hpos := f.precision_pos
  have hsmall : 3 * f.quantum ≤ f.precision * |v| := by
    calc
      3 * f.quantum ≤ 3 * f.precision ^ 6 := by linarith [f.quantum_le]
      _ = f.precision * (3 * f.precision * f.precision ^ 4) := by ring
      _ ≤ f.precision * (1 * f.precision ^ 4) := by
        apply mul_le_mul_of_nonneg_left _ hpos.le
        apply mul_le_mul_of_nonneg_right _ (by positivity)
        linarith [f.precision_le]
      _ ≤ f.precision * |v| := by
        rw [one_mul]
        exact mul_le_mul_of_nonneg_left hv hpos.le
  refine (h.near hz).trans ?_
  unfold Format.margin
  linarith

/-- `z` is `v`, rounded so well that a step leads to a number that is `v` rounded as well. -/
structure RoundsClosely (z : Binary f) (v : ℝ) : Prop where
  isFinite : |v| ≤ f.range → z.isFinite = true ∧ z.nextUp.isFinite = true
  near : z.isFinite = true → |(z.value : ℝ) - v| ≤ 3 / 2 * f.margin v

theorem RoundsClosely.rounds (h : z.RoundsClosely v) : z.Rounds v :=
  ⟨fun hv => (h.isFinite hv).1, fun hz => (h.near hz).trans (by linarith [f.margin_nonneg v])⟩

theorem abs_units_signed (negative : Bool) (hp : p ≤ f.infinity) :
    |((signed negative p hp).units : ℝ)| = f.units p := by
  cases negative with
  | false =>
    change |((f.units p : ℤ) : ℝ)| = _
    rw [Int.cast_natCast, Nat.abs_cast]
  | true =>
    change |((-(f.units p : ℤ) : ℤ) : ℝ)| = _
    rw [Int.cast_neg, Int.cast_natCast, abs_neg, Nat.abs_cast]

theorem abs_units_nextUp_sub_le (hx : x.isFinite = true) :
    |(x.nextUp.units : ℝ) - x.units| ≤ f.precision * |(x.units : ℝ)| + 1 := by
  obtain ⟨negative, p, hp, hpf, rfl⟩ := exists_signed_of_finite hx
  rw [abs_units_signed]
  unfold nextUp
  dsimp only
  split
  · rename_i h0
    subst h0
    have hfirst : f.units 1 = 1 := by cases f <;> decide
    have hzero : (signed negative 0 hp).units = 0 := by
      cases negative <;> simp [units, f.units_zero]
    change |((f.units 1 : ℤ) : ℝ) - _| ≤ _
    rw [hzero, hfirst, f.units_zero]
    norm_num
  · rename_i h0
    split
    · rename_i hneg
      subst hneg
      obtain ⟨r, rfl⟩ := Nat.exists_eq_succ_of_ne_zero h0
      have hdiff : ((signed true r (Nat.le_of_succ_le hp)).units : ℝ) -
          (signed true (r + 1) hp).units = f.spacing r := by
        change ((-(f.units r : ℤ) : ℤ) : ℝ) - ((-(f.units (r + 1) : ℤ) : ℤ) : ℝ) = _
        rw [f.units_succ]
        push_cast
        ring
      change |((signed true r (Nat.le_of_succ_le hp)).units : ℝ) - _| ≤ _
      rw [hdiff, Nat.abs_cast]
      have hle : (f.units r : ℝ) ≤ f.units (r + 1) :=
        Nat.cast_le.mpr (f.units_strictMono r.lt_succ_self).le
      linarith [f.real_spacing_le r, mul_le_mul_of_nonneg_left hle f.precision_pos.le]
    · rename_i hneg
      rw [Bool.not_eq_true] at hneg
      subst hneg
      have hdiff : ((signed false (p + 1) hpf).units : ℝ) - (signed false p hp).units =
          f.spacing p := by
        change ((f.units (p + 1) : ℤ) : ℝ) - ((f.units p : ℤ) : ℝ) = _
        rw [f.units_succ]
        push_cast
        ring
      rw [hdiff, Nat.abs_cast]
      exact f.real_spacing_le p

/-- A step is no longer than a number may be off that is rounded to the nearest one, twice. -/
theorem abs_value_nextUp_sub_le (hx : x.isFinite = true) :
    |(x.nextUp.value : ℝ) - x.value| ≤ f.margin x.value := by
  have hquantum := f.quantum_pos
  have hunits := mul_le_mul_of_nonneg_right (abs_units_nextUp_sub_le hx) hquantum.le
  unfold Format.margin
  rw [real_value_eq, real_value_eq, ← sub_mul, abs_mul, abs_mul, abs_of_pos hquantum]
  linarith

theorem nextUp_isFinite {negative : Bool} {hp : p ≤ f.infinity} (h : p + 1 < f.infinity) :
    (signed negative p hp).nextUp.isFinite = true := by
  unfold nextUp
  dsimp only
  split
  · exact decide_eq_true (by omega)
  · split
    · exact decide_eq_true (by omega)
    · rw [dif_pos (by omega)]
      exact decide_eq_true h

theorem RoundsClosely.nextUp (h : z.RoundsClosely v) (hz : z.isFinite = true) :
    z.nextUp.Rounds v := by
  refine ⟨fun hv => (h.isFinite hv).2, fun _ => ?_⟩
  have hnear := h.near hz
  have hstep := abs_value_nextUp_sub_le hz
  have hsize : |(z.value : ℝ)| ≤ |v| + 3 / 2 * f.margin v := by
    have := abs_sub_abs_le_abs_sub (z.value : ℝ) v
    linarith
  have hscaled := mul_le_mul_of_nonneg_left hsize f.precision_pos.le
  have hnonneg := f.margin_nonneg v
  have hsmall := f.precision_mul_le hnonneg
  have hgrow : f.margin z.value ≤ 3 / 2 * f.margin v := by
    change f.precision * |(z.value : ℝ)| + f.quantum ≤ _
    have hmargin : f.precision * |v| + f.quantum = f.margin v := rfl
    linarith
  have htriangle := abs_sub_le (z.nextUp.value : ℝ) z.value v
  linarith

/-- A directed operation is the nearest one with a step, or without. -/
theorem RoundsClosely.step {c : Prop} [Decidable c] (h : z.RoundsClosely v) :
    (if z.isFinite = true ∧ c then z.nextUp else z).Rounds v := by
  split
  · exact h.nextUp (by tauto)
  · exact h.rounds

/-! ### Sums and products -/

theorem ofUnits_roundsClosely (zeroSign : Bool) (num : ℤ) {den : Nat} (hden : 0 < den) :
    (ofUnits f zeroSign num den).RoundsClosely (num / den * f.quantum) := by
  have hden' : (0 : ℝ) < den := Nat.cast_pos.mpr hden
  have hquantum := f.quantum_pos
  unfold ofUnits
  split
  · rename_i h0
    rw [h0, Int.cast_zero, zero_div, zero_mul]
    have hlarge : 0 + 1 < f.infinity := by cases f <;> decide
    refine ⟨fun _ => ⟨decide_eq_true f.zero_lt_infinity, nextUp_isFinite hlarge⟩, fun _ => ?_⟩
    have hzero : (signed zeroSign 0 f.zero_le_infinity).units = 0 := by
      cases zeroSign <;> simp [units, f.units_zero]
    rw [real_value_eq, hzero, Int.cast_zero, zero_mul, sub_zero, abs_zero]
    exact mul_nonneg (by norm_num) (f.margin_nonneg 0)
  · have habs : |(num : ℝ) / den * f.quantum| = (num.natAbs / den : ℝ) * f.quantum := by
      rw [abs_mul, abs_div, abs_of_pos hquantum, abs_of_pos hden', Nat.cast_natAbs, Int.cast_abs]
    constructor
    · intro hv
      have hsmall : (num.natAbs / den : ℝ) ≤ f.range * twoPow f.unitBits := by
        rw [habs] at hv
        unfold Format.quantum at hv
        rwa [← div_eq_mul_inv, div_le_iff₀ (real_twoPow_unitBits_pos f)] at hv
      have hroom := Format.nearest_succ_lt_infinity hden hsmall
      exact ⟨decide_eq_true (by omega), nextUp_isFinite hroom⟩
    · intro hz
      have herror := Format.abs_units_nearest_sub_le hden (of_decide_eq_true hz)
      have hsigned : |((ofRatio f (num < 0) num.natAbs den).units : ℝ) - num / den| =
          |(f.units (f.nearest num.natAbs den) : ℝ) - num.natAbs / den| := by
        rw [Nat.cast_natAbs, Int.cast_abs]
        unfold ofRatio
        rcases lt_or_ge num 0 with hneg | hnonneg
        · have hneg' : (num : ℝ) < 0 := Int.cast_lt_zero.mpr hneg
          rw [decide_eq_true hneg, abs_of_neg hneg', neg_div, sub_neg_eq_add]
          change |((-(f.units _ : ℤ) : ℤ) : ℝ) - _| = _
          rw [Int.cast_neg, Int.cast_natCast, ← neg_add', abs_neg]
        · have hnonneg' : (0 : ℝ) ≤ num := Int.cast_nonneg hnonneg
          rw [decide_eq_false hnonneg.not_gt, abs_of_nonneg hnonneg']
          rfl
      rw [real_value_eq, ← sub_mul, abs_mul, abs_of_pos hquantum, hsigned]
      refine (mul_le_mul_of_nonneg_right herror hquantum.le).trans ?_
      have hmargin := f.margin_nonneg (num / den * f.quantum)
      unfold Format.margin at hmargin ⊢
      rw [habs] at hmargin ⊢
      linarith

theorem ofRatio_eq_ofUnits {negative : Bool} {num : ℤ} {den : Nat} (hden : 0 < den)
    (h : num ≠ 0 → negative = decide (num < 0)) :
    ofRatio f negative num.natAbs den = ofUnits f negative num den := by
  unfold ofUnits
  split
  · rename_i h0
    rw [h0, Int.natAbs_zero, ofRatio_zero f negative hden]
  · rename_i h0
    rw [← h h0]

theorem units_signed (negative : Bool) (hp : p ≤ f.infinity) :
    (signed negative p hp).units = if negative then -(f.units p : ℤ) else f.units p := rfl

theorem decide_units_lt_zero {negative : Bool} {hp : p ≤ f.infinity}
    (h0 : (signed negative p hp).units ≠ 0) :
    decide ((signed negative p hp).units < 0) = negative := by
  rw [units_signed] at h0 ⊢
  cases negative with
  | true => exact decide_eq_true (by simpa using Nat.pos_of_ne_zero (by simpa using h0))
  | false => exact decide_eq_false (Int.natCast_nonneg _).not_gt

theorem Rounds.neg (h : z.Rounds v) : (-z).Rounds (-v) := by
  refine ⟨fun hv => ?_, fun hz => ?_⟩
  · rw [abs_neg] at hv
    exact (isFinite_neg z).trans (h.isFinite hv)
  · have hnear := h.near ((isFinite_neg z).symm.trans hz)
    unfold Format.margin at hnear ⊢
    rwa [value_neg, Rat.cast_neg, abs_neg, ← neg_add', abs_neg, ← sub_eq_add_neg]

section Operations

variable (hx : x.isFinite = true) (hy : y.isFinite = true)
include hx hy

theorem add_roundsClosely : (x + y).RoundsClosely (x.value + y.value) := by
  obtain ⟨zeroSign, hsum⟩ := add_of_finite hx hy
  have hexact : (x.value + y.value : ℝ) = ((x.units + y.units : ℤ) : ℝ) / (1 : ℕ) * f.quantum := by
    rw [real_value_eq, real_value_eq]
    push_cast
    ring
  rw [hsum, hexact]
  exact ofUnits_roundsClosely zeroSign _ Nat.one_pos

theorem addUp_rounds : (x.addUp y).Rounds (x.value + y.value) := (add_roundsClosely hx hy).step

theorem sub_rounds : (x - y).Rounds (x.value - y.value) := by
  have h := (add_roundsClosely hx ((isFinite_neg y).trans hy)).rounds
  rwa [value_neg, Rat.cast_neg, ← sub_eq_add_neg] at h

theorem subUp_rounds : (x.subUp y).Rounds (x.value - y.value) := by
  have h := addUp_rounds hx ((isFinite_neg y).trans hy)
  rwa [value_neg, Rat.cast_neg, ← sub_eq_add_neg] at h

theorem subDown_rounds : (x.subDown y).Rounds (x.value - y.value) := by
  have h := (addUp_rounds hy ((isFinite_neg x).trans hx)).neg
  rwa [value_neg, Rat.cast_neg, ← sub_eq_add_neg, neg_sub] at h

theorem mul_roundsClosely : (x * y).RoundsClosely (x.value * y.value) := by
  have hproduct : ∃ zeroSign, x * y = ofUnits f zeroSign (x.units * y.units) (twoPow f.unitBits) := by
    obtain ⟨nx, p, hp, hpf, rfl⟩ := exists_signed_of_finite hx
    obtain ⟨ny, q, hq, hqf, rfl⟩ := exists_signed_of_finite hy
    have habs : ((signed nx p hp).units * (signed ny q hq).units).natAbs = f.units p * f.units q := by
      rw [units_signed, units_signed]
      cases nx <;> cases ny <;> simp [Int.natAbs_mul]
    refine ⟨nx ^^ ny, Eq.trans ?_ (ofRatio_eq_ofUnits (twoPow_pos _) fun h0 => ?_)⟩
    · rw [habs]
      change mul _ _ = _
      unfold mul
      dsimp only
      rw [if_neg (not_or.mpr ⟨hpf.ne, hqf.ne⟩)]
    · have hx0 := left_ne_zero_of_mul h0
      have hy0 := right_ne_zero_of_mul h0
      have hnx := decide_units_lt_zero hx0
      have hny := decide_units_lt_zero hy0
      generalize (signed nx p hp).units = m at hx0 hnx ⊢
      generalize (signed ny q hq).units = n at hy0 hny ⊢
      rw [← hnx, ← hny, Bool.eq_iff_iff, Bool.xor_iff_ne, decide_eq_true_iff, mul_neg_iff, ne_eq,
        decide_eq_decide]
      omega
  obtain ⟨zeroSign, hproduct⟩ := hproduct
  have hexact : (x.value * y.value : ℝ) =
      ((x.units * y.units : ℤ) : ℝ) / (twoPow f.unitBits : ℕ) * f.quantum := by
    rw [real_value_eq, real_value_eq]
    unfold Format.quantum
    push_cast
    ring
  rw [hproduct, hexact]
  exact ofUnits_roundsClosely zeroSign _ (twoPow_pos _)

theorem mulUp_rounds : (x.mulUp y).Rounds (x.value * y.value) := (mul_roundsClosely hx hy).step

end Operations

theorem ofUnits_lt_zero {zeroSign : Bool} {n : ℤ} :
    (ofUnits f zeroSign n 1).lt zero = true ↔ n < 0 := by
  rcases lt_trichotomy n 0 with h | rfl | h
  · have hpos : 0 < f.nearest n.natAbs 1 := by
      rw [Nat.pos_iff_ne_zero, ne_eq, Format.nearest_eq_zero_iff Nat.one_pos]
      omega
    unfold ofUnits ofRatio
    rw [if_neg h.ne, decide_eq_true h]
    exact iff_of_true (decide_eq_true (by omega : -(f.nearest n.natAbs 1 : ℤ) < 0)) h
  · have hzero := (zero_at_of_sign f zeroSign).lt_iff (zero_at f)
    unfold ofUnits
    rw [if_pos rfl]
    exact iff_of_false (by rw [hzero]; exact Nat.lt_irrefl 0) (lt_irrefl 0)
  · rw [ofUnits_of_pos _ _ h, ofRatio_positive, (positive_at _).lt_iff (zero_at f)]
    exact iff_of_false (Nat.not_lt_zero _) h.not_gt

theorem sub_lt_zero_iff (hx : x.isFinite = true) (hy : y.isFinite = true) :
    (x - y).lt zero = true ↔ x.value < y.value := by
  have hunit := twoPow_unitBits_pos f
  obtain ⟨zeroSign, hsum⟩ := add_of_finite hx ((isFinite_neg y).trans hy)
  have hvalue : x.value < y.value ↔ x.units + (-y).units < 0 := by
    unfold value
    rw [div_lt_div_iff_of_pos_right hunit, Int.cast_lt, units_neg]
    omega
  change (x + -y).lt zero = true ↔ _
  rw [hsum, hvalue]
  exact ofUnits_lt_zero

theorem isFinite_of_addUp {x y : Binary f} (h : (x.addUp y).isFinite = true) : x.isFinite = true := by
  have hsum : (x + y).isFinite = true := by
    unfold addUp at h
    dsimp only at h
    split at h
    · rename_i hstep
      exact hstep.1
    · exact h
  cases x with
  | nan => exact hsum
  | signed negative p hp =>
    refine decide_eq_true (hp.lt_of_ne ?_)
    rintro rfl
    change (add (signed negative f.infinity hp) y).isFinite = true at hsum
    cases y with
    | nan => cases hsum
    | signed negative' q hq =>
      unfold add at hsum
      dsimp only at hsum
      rw [if_pos rfl] at hsum
      split at hsum
      · cases hsum
      · exact absurd (of_decide_eq_true hsum) (lt_irrefl _)

theorem mul_at (hx : x.At p) (hy : y.At q) (hp0 : 0 < p) (hq0 : 0 < q) (hp : p < f.infinity)
    (hq : q < f.infinity) : (x * y).At (f.nearest (f.units p * f.units q) (twoPow f.unitBits)) := by
  obtain ⟨hple, rfl⟩ := hx.eq_positive hp0
  obtain ⟨hqle, rfl⟩ := hy.eq_positive hq0
  change (mul _ _).At _
  unfold mul
  dsimp only
  rw [if_neg (not_or.mpr ⟨hp.ne, hq.ne⟩)]
  exact positive_at _

/-! ### Quotients -/

section Quotient

variable (hx : x.isFinite = true) (hy : y.At q) (hq0 : 0 < q) (hq : q < f.infinity)
include hx hy hq0 hq

theorem div_roundsClosely : (x / y).RoundsClosely (x.value / y.value) := by
  have hquotient : ∃ zeroSign,
      x / y = ofUnits f zeroSign (x.units * twoPow f.unitBits) (f.units q) := by
    obtain ⟨negative, p, hp, hpf, rfl⟩ := exists_signed_of_finite hx
    obtain ⟨hqle, rfl⟩ := hy.eq_positive hq0
    have habs : ((signed negative p hp).units * twoPow f.unitBits).natAbs =
        f.units p * twoPow f.unitBits := by
      rw [units_signed]
      cases negative <;> simp [Int.natAbs_mul]
    refine ⟨negative, Eq.trans ?_ (ofRatio_eq_ofUnits (Format.units_pos hq0) fun h0 => ?_)⟩
    · rw [habs]
      change div _ _ = _
      unfold div
      dsimp only
      rw [if_neg hpf.ne, if_neg hq.ne, if_neg hq0.ne', Bool.xor_false]
    · have hunits : (0 : ℤ) < twoPow f.unitBits := Int.natCast_pos.mpr (twoPow_pos _)
      have hsign : (signed negative p hp).units * twoPow f.unitBits < 0 ↔
          (signed negative p hp).units < 0 := by
        rw [← not_le, mul_nonneg_iff_of_pos_right hunits, not_le]
      rw [decide_eq_decide.mpr hsign, decide_units_lt_zero (left_ne_zero_of_mul h0)]
  obtain ⟨zeroSign, hquotient⟩ := hquotient
  have hunit := real_twoPow_unitBits_pos f
  have hexact : (x.value / y.value : ℝ) =
      ((x.units * twoPow f.unitBits : ℤ) : ℝ) / (f.units q : ℕ) * f.quantum := by
    rw [real_value_eq, real_value_eq, hy.units_eq]
    unfold Format.quantum
    push_cast
    field_simp
  rw [hquotient, hexact]
  exact ofUnits_roundsClosely zeroSign _ (Format.units_pos hq0)

theorem divUp_rounds : (x.divUp y).Rounds (x.value / y.value) :=
  (div_roundsClosely hx hy hq0 hq).step

theorem divDown_rounds : (x.divDown y).Rounds (x.value / y.value) := by
  have h := (divUp_rounds ((isFinite_neg x).trans hx) hy hq0 hq).neg
  rwa [value_neg, Rat.cast_neg, neg_div, neg_neg] at h

end Quotient

theorem div_value_eq (hx : x.At p) (hy : y.At q) : (x.value / y.value : ℝ) =
    ((f.units p * twoPow f.unitBits : ℕ) : ℝ) / f.units q * f.quantum := by
  have hunit := real_twoPow_unitBits_pos f
  rw [hx.real_value_eq, hy.real_value_eq]
  unfold Format.quantum
  push_cast
  field_simp

theorem div_value_le_overflow (hx : x.At p) (hy : y.At q) (hp : p < f.infinity) (hq0 : 0 < q)
    (hq : q < f.infinity) (h : (x / y).isFinite = true) : (x.value / y.value : ℝ) ≤ f.overflow := by
  rw [div_value_eq hx hy]
  exact Format.le_overflow_of_nearest_lt (Format.units_pos hq0)
    ((div_at hx hy hp hq hq0).isFinite_iff.mp h)

/-- A quotient that is finite is so for a larger divisor. -/
theorem div_isFinite_of_le {y' : Binary f} {q' : Nat} (hx : x.At p) (hp0 : 0 < p)
    (hp : p < f.infinity) (hy : y.At q) (hq0 : 0 < q) (hy' : y'.At q') (hq' : q' < f.infinity)
    (hle : q ≤ q') (h : (x / y).isFinite = true) : (x / y').isFinite = true := by
  rcases hle.eq_or_lt with rfl | hlt
  · obtain ⟨_, rfl⟩ := hy.eq_positive hq0
    obtain ⟨_, rfl⟩ := hy'.eq_positive hq0
    exact h
  · have hquotient := div_at hx hy' hp hq' (hq0.trans hlt)
    by_contra hinfinite
    have hover := Format.overflow_le_of_nearest_eq (Format.units_pos (hq0.trans hlt))
      (hquotient.le_infinity.eq_of_not_lt fun hf => hinfinite (hquotient.isFinite_iff.mpr hf))
    have hfinite := div_value_le_overflow hx hy hp hq0 (hlt.trans hq') h
    have hquantum := f.quantum_pos
    have hnum : (0 : ℝ) < (f.units p * twoPow f.unitBits : ℕ) := by
      exact_mod_cast Nat.mul_pos (Format.units_pos hp0) (twoPow_pos _)
    have hunits : (f.units q : ℝ) < f.units q' := by exact_mod_cast f.units_strictMono hlt
    have hlt' := mul_lt_mul_of_pos_right
      (div_lt_div_of_pos_left hnum (Nat.cast_pos.mpr (Format.units_pos hq0)) hunits) hquantum
    rw [div_value_eq hx hy] at hfinite
    linarith

/-! ### Square roots -/

theorem floorSqrt_spec (n : Nat) : floorSqrt n * floorSqrt n ≤ n ∧
    n < (floorSqrt n + 1) * (floorSqrt n + 1) := by
  fun_induction floorSqrt n with
  | case1 => exact ⟨Nat.le_refl 0, Nat.one_pos⟩
  | case2 n h0 root hle ih => exact ⟨hle, by grind⟩
  | case3 n h0 root hlt ih => exact ⟨by grind, Nat.not_le.mp hlt⟩

theorem nearestBy_cases (f : Format) (n : Nat) (twice : Nat → Ordering) :
    f.nearestBy n twice = min (f.floorPosition n) f.infinity ∨
      f.nearestBy n twice = min (f.floorPosition n + 1) f.infinity := by
  unfold Format.nearestBy
  dsimp only
  split
  · exact Or.inl rfl
  · split
    · exact Or.inl rfl
    · exact Or.inr rfl
  · exact Or.inr rfl

theorem units_sub_le {s n m low : Nat} (hroot : n * n ≤ m) (hroot' : m < (n + 1) * (n + 1))
    (hlow : f.units low ≤ n) (hlow' : n < f.units (low + 1)) (hs : s = low ∨ s = low + 1) :
    |(f.units s : ℝ) - √m| ≤ f.precision * √m + 1 := by
  have hle : (f.units low : ℝ) ≤ √m := by
    refine Real.le_sqrt_of_sq_le ?_
    rw [sq]
    exact_mod_cast (Nat.mul_le_mul hlow hlow).trans hroot
  have hlt : √m < f.units (low + 1) := by
    rw [Real.sqrt_lt' (by exact_mod_cast Nat.zero_lt_of_lt hlow'), sq]
    exact_mod_cast hroot'.trans_le (Nat.mul_le_mul hlow' hlow')
  have hspacing := f.real_spacing_le low
  have hscaled := mul_le_mul_of_nonneg_left hle f.precision_pos.le
  rw [f.units_succ, Nat.cast_add] at hlt
  have hnonneg : (0 : ℝ) ≤ f.spacing low := Nat.cast_nonneg _
  rw [abs_le]
  rcases hs with rfl | rfl
  · constructor <;> linarith
  · rw [f.units_succ, Nat.cast_add]
    constructor <;> linarith

theorem sqrt_rounds_of_pos (hx : x.At p) (hp0 : 0 < p) (hp : p < f.infinity) :
    x.sqrt.Rounds √x.value := by
  have hunit := real_twoPow_unitBits_pos f
  have hquantum := f.quantum_pos
  obtain ⟨hroot, hroot'⟩ := floorSqrt_spec (f.units p * twoPow f.unitBits)
  obtain ⟨hlow, hhigh⟩ := f.units_floorPosition (floorSqrt (f.units p * twoPow f.unitBits))
  generalize hn : floorSqrt (f.units p * twoPow f.unitBits) = n at hroot hroot' hlow hhigh
  obtain ⟨s, hs, hcases⟩ : ∃ s, x.sqrt.At s ∧
      (s = min (f.floorPosition n) f.infinity ∨ s = min (f.floorPosition n + 1) f.infinity) := by
    obtain ⟨hle, rfl⟩ := hx.eq_positive hp0
    unfold sqrt
    dsimp only
    rw [if_neg hp0.ne', if_neg (by simp), if_neg hp.ne]
    exact ⟨_, positive_at _, hn ▸ nearestBy_cases f _ _⟩
  have hscale : √x.value = √((f.units p * twoPow f.unitBits : ℕ) : ℝ) * f.quantum := by
    rw [hx.real_value_eq, Nat.cast_mul, Real.sqrt_mul (Nat.cast_nonneg _), Real.sqrt_div' _ hunit.le]
    unfold Format.quantum
    rw [mul_assoc, ← div_eq_mul_inv, Real.sqrt_div_self', one_div, div_eq_mul_inv]
  have hnonneg : 0 ≤ √((f.units p * twoPow f.unitBits : ℕ) : ℝ) := Real.sqrt_nonneg _
  rw [hscale]
  constructor
  · intro hv
    rw [abs_of_nonneg (by positivity), Format.quantum, ← div_eq_mul_inv, div_le_iff₀ hunit] at hv
    have hn : (n : ℝ) ≤ √((f.units p * twoPow f.unitBits : ℕ) : ℝ) := by
      refine Real.le_sqrt_of_sq_le ?_
      rw [sq]
      exact_mod_cast hroot
    have hroom := Format.succ_lt_infinity_of_units_le (f := f) (p := f.floorPosition n) (by
      have := mul_pos f.range_pos hunit
      have := (Nat.cast_le (α := ℝ)).mpr hlow
      linarith)
    exact hs.isFinite_iff.mpr (by omega)
  · intro hz
    have hsf := hs.isFinite_iff.mp hz
    have herror := units_sub_le hroot hroot' hlow hhigh (s := s) (by omega)
    rw [real_value_eq, hs.units_eq, Int.cast_natCast, ← sub_mul, abs_mul, abs_of_pos hquantum]
    refine (mul_le_mul_of_nonneg_right herror hquantum.le).trans ?_
    have hmargin := f.margin_nonneg (√((f.units p * twoPow f.unitBits : ℕ) : ℝ) * f.quantum)
    unfold Format.margin at hmargin ⊢
    rw [abs_of_nonneg (by positivity)] at hmargin ⊢
    linarith

theorem sqrt_rounds (hx : x.At p) (hp : p < f.infinity) : x.sqrt.Rounds √x.value := by
  rcases Nat.eq_zero_or_pos p with rfl | hp0
  · have hzero : x.value = 0 := by
      rw [hx.value_eq, f.units_zero, Nat.cast_zero, zero_div]
    have hroot : x.sqrt = x := by
      obtain ⟨negative, hle, rfl, -⟩ := hx
      rfl
    rw [hroot, hzero, Rat.cast_zero, Real.sqrt_zero]
    exact rounds_zero (hx.isFinite_iff.mpr hp) hzero
  · exact sqrt_rounds_of_pos hx hp0 hp

end Binary

end DifferentialPrivacy
