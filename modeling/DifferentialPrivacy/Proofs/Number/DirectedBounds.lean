import DifferentialPrivacy.Number.Directed
import DifferentialPrivacy.Proofs.Number.ExactValue

set_option autoImplicit false

/-!
# Upward products and quotients as bounds

Both operations take the nearest position to an exact ratio of units and step up when the remainder,
computed in the format, is positive. The result is a bound on the exact value unless the remainder is
positive and vanishes: it is then no more than half the smallest positive value. That cannot happen
to the quotient nor to the square of a number that is not very small.
-/
namespace DifferentialPrivacy

namespace Format

variable {f : Format} {num den : Nat}

/-- The nearest position to `num / den` units lies below them by a remainder that the format rounds
    to zero. -/
def RemainderVanishes (f : Format) (num den : Nat) : Prop :=
  f.units (f.nearest num den) * den < num ∧
    2 * num ≤ 2 * (f.units (f.nearest num den) * den) + twoPow f.unitBits

/-- The nearest position, or the next one when a remainder is seen above it. -/
def upward (f : Format) (num den : Nat) : Nat :=
  let q := f.nearest num den
  if q < f.infinity ∧ 2 * (f.units q * den) + twoPow f.unitBits < 2 * num then q + 1 else q

theorem nearest_le_upward (f : Format) (num den : Nat) : f.nearest num den ≤ f.upward num den := by
  unfold upward
  dsimp only
  split <;> omega

theorem upward_le_infinity (f : Format) (num den : Nat) : f.upward num den ≤ f.infinity := by
  have hle := f.nearest_le_infinity num den
  unfold upward
  dsimp only
  split <;> omega

theorem le_units_upward_iff (hden : 0 < den) (h : f.upward num den < f.infinity) :
    num ≤ f.units (f.upward num den) * den ↔ ¬f.RemainderVanishes num den := by
  have hfin := (f.nearest_le_upward num den).trans_lt h
  have hlt := lt_units_nearest_succ hden hfin
  unfold upward RemainderVanishes
  dsimp only
  split <;> omega

theorem upward_units {p : Nat} (hden : 0 < den) (hp : p ≤ f.infinity) :
    f.upward (f.units p * den) den = p := by
  unfold upward
  rw [nearest_units hden hp, if_neg]
  omega

theorem not_remainderVanishes_of_dvd (hnum : twoPow f.unitBits ∣ num)
    (hq : twoPow f.unitBits ∣ f.units (f.nearest num den) * den) :
    ¬f.RemainderVanishes num den := by
  rintro ⟨hlt, hle⟩
  obtain ⟨r, hr⟩ := Nat.exists_eq_add_of_lt hlt
  have hdvd : twoPow f.unitBits ∣ r + 1 := by
    rw [hr, Nat.add_assoc] at hnum
    exact (Nat.dvd_add_right hq).mp hnum
  have := Nat.le_of_dvd (Nat.succ_pos r) hdvd
  have := twoPow_pos f.unitBits
  omega

/-- The number of units from which on a product keeps its remainder, and a dividend that of its
    quotient. -/
def remainderBound (f : Format) : Nat := twoPow (2 * f.fractionBits + 1)

theorem remainderBound_le (f : Format) : f.remainderBound ≤ twoPow f.unitBits :=
  twoPow_le_twoPow (by cases f <;> decide)

/-- The spacings of two numbers are powers of two, and together they make up at least one if the
    product of the numbers is not very small. -/
theorem twoPow_dvd_units_mul {m n : Nat}
    (h : f.remainderBound * twoPow f.unitBits < f.units (m + 1) * f.units (n + 1)) :
    twoPow f.unitBits ∣ f.units m * f.units n := by
  have hwide := h.trans_le (Nat.mul_le_mul (f.units_succ_le m) (f.units_succ_le n))
  unfold remainderBound spacing at hwide
  rw [← twoPow_add, ← twoPow_add, ← twoPow_add, ← twoPow_add] at hwide
  have hexp := (Nat.pow_lt_pow_iff_right (by decide)).mp hwide
  have hdvd : twoPow f.unitBits ∣ f.spacing m * f.spacing n := by
    unfold spacing
    rw [← twoPow_add]
    exact Nat.pow_dvd_pow 2 (by omega)
  exact hdvd.trans (Nat.mul_dvd_mul (f.spacing_dvd_units m) (f.spacing_dvd_units n))

theorem twoPow_dvd_units_infinity (f : Format) : twoPow f.unitBits ∣ f.units f.infinity := by
  rw [units_infinity]
  exact Nat.pow_dvd_pow 2 (by cases f <;> decide)

/-- No remainder below a whole unit is left above the end of the format. -/
theorem not_remainderVanishes_of_overflow (hnum : twoPow f.unitBits ∣ num)
    (h : f.nearest num den = f.infinity) : ¬f.RemainderVanishes num den := by
  apply not_remainderVanishes_of_dvd hnum
  rw [h]
  exact Nat.dvd_mul_right_of_dvd f.twoPow_dvd_units_infinity den

/-- What the nearest quotient of a dividend that is not very small makes up is whole. -/
theorem twoPow_dvd_quotient {p q : Nat} (hp : f.remainderBound ≤ f.units p) (hq : 0 < q) :
    twoPow f.unitBits ∣
      f.units (f.nearest (f.units p * twoPow f.unitBits) (f.units q)) * f.units q := by
  rcases (f.nearest_le_infinity (f.units p * twoPow f.unitBits) (f.units q)).eq_or_lt with h | h
  · rw [h]
    exact Nat.dvd_mul_right_of_dvd f.twoPow_dvd_units_infinity _
  · apply twoPow_dvd_units_mul
    calc
      _ ≤ f.units p * twoPow f.unitBits := Nat.mul_le_mul_right _ hp
      _ < f.units (f.nearest (f.units p * twoPow f.unitBits) (f.units q) + 1) * f.units q :=
        lt_units_nearest_succ (units_pos hq) h
      _ ≤ _ := Nat.mul_le_mul_left _ (f.units_strictMono q.lt_succ_self).le

theorem not_remainderVanishes_quotient {p q : Nat} (hp : f.remainderBound ≤ f.units p)
    (hq : 0 < q) : ¬f.RemainderVanishes (f.units p * twoPow f.unitBits) (f.units q) :=
  not_remainderVanishes_of_dvd (Nat.dvd_mul_left _ _) (twoPow_dvd_quotient hp hq)

theorem not_remainderVanishes_product {p q : Nat}
    (h : f.remainderBound * twoPow f.unitBits ≤ f.units p * f.units q) :
    ¬f.RemainderVanishes (f.units p * f.units q) (twoPow f.unitBits) := by
  refine not_remainderVanishes_of_dvd (twoPow_dvd_units_mul ?_) (Nat.dvd_mul_left _ _)
  have hp := f.units_strictMono p.lt_succ_self
  exact h.trans_lt (Nat.mul_lt_mul_of_lt_of_le hp (f.units_strictMono q.lt_succ_self).le
    (units_pos q.succ_pos))

theorem not_remainderVanishes_zero (f : Format) (den : Nat) : ¬f.RemainderVanishes 0 den :=
  fun h => Nat.not_lt_zero _ h.1

/-- The number of units from which on a square keeps its remainder. -/
def squareBound (f : Format) : Nat := twoPow (f.fractionBits + (f.unitBits + 1) / 2)

theorem squareBound_le (f : Format) : f.squareBound ≤ twoPow f.unitBits :=
  twoPow_le_twoPow (by cases f <;> decide)

theorem not_remainderVanishes_square {p : Nat} (hp : f.squareBound ≤ f.units p) :
    ¬f.RemainderVanishes (f.units p * f.units p) (twoPow f.unitBits) := by
  refine not_remainderVanishes_of_dvd ?_ (Nat.dvd_mul_left _ _)
  have hwide := (hp.trans_lt (f.units_strictMono p.lt_succ_self)).trans_le (f.units_succ_le p)
  unfold squareBound spacing at hwide
  rw [← twoPow_add] at hwide
  have hexp := (Nat.pow_lt_pow_iff_right (by decide)).mp hwide
  have hdvd : twoPow f.unitBits ∣ f.spacing p * f.spacing p := by
    unfold spacing
    rw [← twoPow_add]
    exact Nat.pow_dvd_pow 2 (by omega)
  exact hdvd.trans (Nat.mul_dvd_mul (f.spacing_dvd_units p) (f.spacing_dvd_units p))

end Format

namespace Binary

variable {f : Format}

theorem eq_zero_of_zero_lt {x : Binary f} (h : zero.lt x = true) : x.eq zero = false := by
  obtain ⟨p, hp, hpos, rfl⟩ := eq_positive_of_zero_lt h
  change decide ((p : Int) = 0) = false
  rw [decide_eq_false_iff_not]
  omega

theorem zero_lt_ofUnits {num : Int} {den : Nat} (hden : 0 < den) :
    zero.lt (ofUnits f false num den) = true ↔ (den : Int) < 2 * num := by
  rcases lt_trichotomy num 0 with h | h | h
  · unfold ofUnits ofRatio
    rw [if_neg (by omega), decide_eq_true h]
    change decide ((0 : Int) < -_) = true ↔ _
    rw [decide_eq_true_iff]
    omega
  · rw [h]
    change decide ((0 : Int) < 0) = true ↔ _
    rw [decide_eq_true_iff]
    omega
  · rw [ofUnits_of_pos _ _ h, ofRatio_positive, zero_lt_positive, Nat.pos_iff_ne_zero, ne_eq,
      Format.nearest_eq_zero_iff hden]
    omega

theorem zero_lt_remainder {num : Int} {exact rounded : Nat} (h : num = exact - rounded) :
    zero.lt (ofUnits f false num (twoPow f.unitBits)) = true ↔
      2 * rounded + twoPow f.unitBits < 2 * exact := by
  rw [zero_lt_ofUnits (twoPow_pos _), h]
  omega

/-- The step that both operations take. -/
theorem step_eq_upward (num den : Nat) {step : Prop} [Decidable step]
    (h : f.nearest num den < f.infinity →
      (step ↔ 2 * (f.units (f.nearest num den) * den) + twoPow f.unitBits < 2 * num)) :
    (if (ofRatio f false num den).isFinite ∧ step then (ofRatio f false num den).nextUp
      else ofRatio f false num den) = .signed false (f.upward num den) (f.upward_le_infinity _ _) := by
  have hfinite : (ofRatio f false num den).isFinite = true ↔ f.nearest num den < f.infinity :=
    isFinite_positive
  by_cases hs : f.nearest num den < f.infinity ∧
      2 * (f.units (f.nearest num den) * den) + twoPow f.unitBits < 2 * num
  · have hup : f.upward num den = f.nearest num den + 1 := if_pos hs
    rw [if_pos ⟨hfinite.mpr hs.1, (h hs.1).mpr hs.2⟩]
    simp only [hup]
    unfold ofRatio nextUp
    by_cases h0 : f.nearest num den = 0
    · simp only [h0, if_true]
    · simp [h0, hs.1]
  · have hup : f.upward num den = f.nearest num den := if_neg hs
    rw [if_neg, ofRatio_positive]
    · simp only [hup]
    · rintro ⟨hfin, hstep⟩
      exact hs ⟨hfinite.mp hfin, (h (hfinite.mp hfin)).mp hstep⟩

section Positive

variable {p q : Nat} (hp : p ≤ f.infinity) (hq : q ≤ f.infinity)

theorem divUp_positive (hpf : p < f.infinity) (hqf : q < f.infinity) (hq0 : 0 < q) :
    (signed false p hp).divUp (signed false q hq) =
      .signed false (f.upward (f.units p * twoPow f.unitBits) (f.units q))
        (f.upward_le_infinity _ _) := by
  have hquotient : signed false p hp / signed false q hq =
      ofRatio f false (f.units p * twoPow f.unitBits) (f.units q) := by
    change (signed false p hp).div (signed false q hq) = _
    unfold div
    dsimp only
    rw [if_neg (by omega), if_neg (by omega), if_neg (by omega)]
    rfl
  unfold divUp
  rw [hquotient, zero_lt_positive.mpr hq0]
  apply step_eq_upward
  intro hfin
  generalize hn : f.nearest (f.units p * twoPow f.unitBits) (f.units q) = n at hfin ⊢
  have hremainder : mulAdd (-ofRatio f false (f.units p * twoPow f.unitBits) (f.units q))
      (signed false q hq) (signed false p hp) =
      ofUnits f false (-(f.units n) * f.units q + f.units p * twoPow f.unitBits)
        (twoPow f.unitBits) := by
    rw [← hn]
    change mulAdd (signed true _ _) _ _ = _
    unfold mulAdd
    dsimp only
    rw [if_neg (by omega), if_neg (by omega)]
    rfl
  have hseen : zero.lt (ofUnits f false (-(f.units n) * f.units q + f.units p * twoPow f.unitBits)
      (twoPow f.unitBits)) = true ↔
      2 * (f.units n * f.units q) + twoPow f.unitBits < 2 * (f.units p * twoPow f.unitBits) :=
    zero_lt_remainder (by push_cast; ring)
  rw [hremainder, ← hseen]
  refine ⟨And.right, fun h => ⟨?_, h⟩⟩
  rw [eq_zero_of_zero_lt h]
  decide

theorem divUp_one (hpf : p < f.infinity) :
    (signed false p hp).divUp one = signed false p hp := by
  have hone : f.one < f.infinity := (Nat.le_add_right _ _).trans_lt f.one_add_lt_infinity
  have hpos : 0 < f.one := by cases f <;> decide
  unfold one
  rw [divUp_positive hp f.one_le_infinity hpf hone hpos]
  simp only [f.units_one, Format.upward_units (twoPow_pos _) hp]

theorem mulUp_positive (hpf : p < f.infinity) (hqf : q < f.infinity) :
    (signed false p hp).mulUp (signed false q hq) =
      .signed false (f.upward (f.units p * f.units q) (twoPow f.unitBits))
        (f.upward_le_infinity _ _) := by
  have hproduct : signed false p hp * signed false q hq =
      ofRatio f false (f.units p * f.units q) (twoPow f.unitBits) := by
    change (signed false p hp).mul (signed false q hq) = _
    unfold mul
    dsimp only
    rw [if_neg (by omega)]
    rfl
  unfold mulUp
  rw [hproduct]
  apply step_eq_upward
  intro hfin
  generalize hn : f.nearest (f.units p * f.units q) (twoPow f.unitBits) = n at hfin ⊢
  have hremainder : mulAdd (signed false p hp) (signed false q hq)
      (-ofRatio f false (f.units p * f.units q) (twoPow f.unitBits)) =
      ofUnits f false (f.units p * f.units q + -(f.units n) * twoPow f.unitBits)
        (twoPow f.unitBits) := by
    rw [← hn]
    change mulAdd _ _ (signed true _ _) = _
    unfold mulAdd
    dsimp only
    rw [if_neg (by omega), if_neg (by omega)]
    rfl
  rw [hremainder]
  exact zero_lt_remainder (by push_cast; ring)

theorem divUp_infinity (hqf : q < f.infinity) :
    (infinity : Binary f).divUp (signed false q hq) = infinity := by
  have hquotient : infinity / signed false q hq = infinity := by
    change div (signed false f.infinity _) (signed false q hq) = _
    unfold div
    dsimp only
    rw [if_pos rfl, if_neg (by omega)]
    rfl
  have hinf : (infinity : Binary f).isFinite = false := decide_eq_false (lt_irrefl _)
  unfold divUp
  rw [hquotient]
  simp [hinf]

theorem squareUp_infinity : (infinity : Binary f).squareUp = infinity := by
  have hzero : f.infinity ≠ 0 := f.zero_lt_infinity.ne'
  have hproduct : (infinity * infinity : Binary f) = infinity := by
    change mul (signed false f.infinity _) (signed false f.infinity _) = _
    unfold mul
    simp [hzero, infinity]
  have hinf : (infinity : Binary f).isFinite = false := decide_eq_false (lt_irrefl _)
  unfold squareUp mulUp
  rw [hproduct]
  simp [hinf]

theorem exists_divUp_eq (hq0 : 0 < q) (hqf : q < f.infinity) :
    ∃ r hr, (signed false p hp).divUp (signed false q hq) = .signed false r hr := by
  rcases hp.eq_or_lt with rfl | hpf
  · exact ⟨_, _, divUp_infinity hq hqf⟩
  · exact ⟨_, _, divUp_positive hp hq hpf hqf hq0⟩

theorem exists_squareUp_eq : ∃ r hr, (signed false p hp).squareUp = .signed false r hr := by
  rcases hp.eq_or_lt with rfl | hpf
  · exact ⟨_, _, squareUp_infinity⟩
  · exact ⟨_, _, mulUp_positive hp hp hpf hpf⟩

theorem lt_infinity_of_divUp (hqf : q < f.infinity)
    (h : ((signed false p hp).divUp (signed false q hq)).isFinite = true) : p < f.infinity := by
  rcases hp.eq_or_lt with rfl | hpf
  · change ((infinity : Binary f).divUp _).isFinite = true at h
    rw [divUp_infinity hq hqf] at h
    exact isFinite_positive.mp h
  · exact hpf

theorem lt_infinity_of_squareUp (h : (signed false p hp).squareUp.isFinite = true) :
    p < f.infinity := by
  rcases hp.eq_or_lt with rfl | hpf
  · change (infinity : Binary f).squareUp.isFinite = true at h
    rw [squareUp_infinity] at h
    exact isFinite_positive.mp h
  · exact hpf

theorem div_value_le_divUp_iff (hq0 : 0 < q) (hqf : q < f.infinity)
    (h : ((signed false p hp).divUp (signed false q hq)).isFinite = true) :
    (signed false p hp).value / (signed false q hq).value ≤
        ((signed false p hp).divUp (signed false q hq)).value ↔
      ¬f.RemainderVanishes (f.units p * twoPow f.unitBits) (f.units q) := by
  have hpf := lt_infinity_of_divUp hp hq hqf h
  rw [divUp_positive hp hq hpf hqf hq0] at h ⊢
  have hunit := twoPow_unitBits_pos f
  have hden : (0 : ℚ) < f.units q := Nat.cast_pos.mpr (Format.units_pos hq0)
  rw [← Format.le_units_upward_iff (Format.units_pos hq0) (isFinite_positive.mp h),
    ← Nat.cast_le (α := ℚ), value_positive, value_positive, value_positive,
    div_div_div_cancel_right₀ hunit.ne', div_le_div_iff₀ hden hunit, Nat.cast_mul, Nat.cast_mul]

theorem sq_value_le_squareUp_iff (h : (signed false p hp).squareUp.isFinite = true) :
    (signed false p hp).value ^ 2 ≤ (signed false p hp).squareUp.value ↔
      ¬f.RemainderVanishes (f.units p * f.units p) (twoPow f.unitBits) := by
  have hpf := lt_infinity_of_squareUp hp h
  have hunit := twoPow_unitBits_pos f
  unfold squareUp at h ⊢
  rw [mulUp_positive hp hp hpf hpf] at h ⊢
  rw [← Format.le_units_upward_iff (twoPow_pos _) (isFinite_positive.mp h),
    ← Nat.cast_le (α := ℚ), value_positive, value_positive, sq, div_mul_div_comm, ← div_div,
    div_le_div_iff_of_pos_right hunit, div_le_iff₀ hunit, Nat.cast_mul, Nat.cast_mul]

theorem half_value_le_divUp_two (h : ((signed false p hp).divUp two).isFinite = true) :
    (signed false p hp).value / 2 ≤ ((signed false p hp).divUp two).value := by
  have hpos : 0 < f.one + twoPow f.fractionBits := Nat.add_pos_right _ (twoPow_pos _)
  rw [← value_two f]
  rw [two_eq] at h ⊢
  refine (div_value_le_divUp_iff _ _ hpos f.one_add_lt_infinity h).mpr ?_
  apply Format.not_remainderVanishes_of_dvd (Nat.dvd_mul_left _ _)
  rw [Format.units_one_add]
  exact Nat.dvd_mul_left_of_dvd (Nat.dvd_mul_left _ _) _

end Positive

end Binary
end DifferentialPrivacy
