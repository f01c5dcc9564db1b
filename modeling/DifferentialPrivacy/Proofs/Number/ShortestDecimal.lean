import DifferentialPrivacy.Number.Decimal
import DifferentialPrivacy.Proofs.Number.ExactValue
import Mathlib.Algebra.Order.Field.Power
import Mathlib.Tactic.Positivity

set_option autoImplicit false

/-!
# Shortest decimals tell numbers apart

Seventeen digits are enough: on the sixteenth grid below the leading digit, the neighbours of a number
are less than half of the way to the numbers next to it. So the decimal of a number lies in the window
of the numbers that round to it, and as no two windows meet, different numbers have different decimals.
-/
namespace DifferentialPrivacy

section Scaling

variable {a b : Nat} {e : Int}

theorem cast_tenPow (n : Nat) : ((tenPow n : Nat) : ℚ) = 10 ^ n := Nat.cast_pow 10 n

theorem cast_twoPow (n : Nat) : ((twoPow n : Nat) : ℚ) = 2 ^ n := Nat.cast_pow 2 n

theorem cast_tenPow_pos (n : Nat) : (0 : ℚ) < tenPow n := Nat.cast_pos.mpr (tenPow_pos n)

theorem ten_zpow_pos (e : Int) : (0 : ℚ) < 10 ^ e := zpow_pos (by norm_num) e

/-- One of the two powers is one, and the other is the power of ten or its reciprocal. -/
theorem cast_tenPow_toNat (e : Int) :
    ((tenPow e.toNat : Nat) : ℚ) = 10 ^ e * tenPow (-e).toNat := by
  rw [cast_tenPow, cast_tenPow]
  rcases Int.le_total 0 e with h | h
  · obtain ⟨n, rfl⟩ := Int.eq_ofNat_of_zero_le h
    simp
  · obtain ⟨n, hn⟩ := Int.eq_ofNat_of_zero_le (Int.neg_nonneg_of_nonpos h)
    obtain rfl : e = -(n : Int) := by omega
    simp

theorem cast_mul_tenPow (a : Nat) (e : Int) :
    ((a * tenPow e.toNat : Nat) : ℚ) = a * 10 ^ e * tenPow (-e).toNat := by
  rw [Nat.cast_mul, cast_tenPow_toNat, mul_assoc]

theorem scaled_le_iff :
    a * tenPow e.toNat ≤ b * tenPow (-e).toNat ↔ (a : ℚ) * 10 ^ e ≤ b := by
  rw [← Nat.cast_le (α := ℚ), cast_mul_tenPow, Nat.cast_mul,
    mul_le_mul_iff_left₀ (cast_tenPow_pos _)]

theorem le_scaled_iff :
    b * tenPow (-e).toNat ≤ a * tenPow e.toNat ↔ (b : ℚ) ≤ a * 10 ^ e := by
  rw [← Nat.cast_le (α := ℚ), cast_mul_tenPow a, Nat.cast_mul,
    mul_le_mul_iff_left₀ (cast_tenPow_pos _)]

theorem scaled_lt_iff :
    a * tenPow e.toNat < b * tenPow (-e).toNat ↔ (a : ℚ) * 10 ^ e < b := by
  rw [← not_le, ← not_le, le_scaled_iff]

theorem lt_scaled_iff :
    b * tenPow (-e).toNat < a * tenPow e.toNat ↔ (b : ℚ) < a * 10 ^ e := by
  rw [← not_le, ← not_le, scaled_le_iff]

theorem tenPow_toNat_of_neg (h : e < 0) : tenPow e.toNat = 1 := by
  rw [Int.toNat_of_nonpos h.le]
  rfl

theorem tenPow_neg_toNat (h : ¬e < 0) : tenPow (-e).toNat = 1 := by
  rw [Int.toNat_of_nonpos (by omega)]
  rfl

end Scaling

namespace Decimal

/-! ### Grids and windows -/

namespace Window

variable {w : Window} {n fuel : Nat} {e : Int} {r : ℚ}

/-- The ratio lies in the window. -/
def Holds (w : Window) (r : ℚ) : Prop :=
  if w.closed then (w.lower : ℚ) ≤ r * w.den ∧ r * w.den ≤ w.upper
  else (w.lower : ℚ) < r * w.den ∧ r * w.den < w.upper

theorem Holds.of_lt (hl : (w.lower : ℚ) < r * w.den) (hu : r * w.den < w.upper) : w.Holds r := by
  unfold Holds
  split
  · exact ⟨hl.le, hu.le⟩
  · exact ⟨hl, hu⟩

theorem Holds.le (h : w.Holds r) : (w.lower : ℚ) ≤ r * w.den ∧ r * w.den ≤ w.upper := by
  unfold Holds at h
  split at h
  · exact h
  · exact ⟨h.1.le, h.2.le⟩

theorem contains_iff : w.contains n e = true ↔ w.Holds (n * 10 ^ e) := by
  have hpair : (if e < 0 then (n * w.den, tenPow (-e).toNat)
      else (n * w.den * tenPow e.toNat, 1)) =
      (n * w.den * tenPow e.toNat, tenPow (-e).toNat) := by
    by_cases h : e < 0
    · rw [if_pos h, tenPow_toNat_of_neg h, Nat.mul_one]
    · rw [if_neg h, tenPow_neg_toNat h]
  have hnum : (n : ℚ) * 10 ^ e * w.den = (n * w.den : Nat) * 10 ^ e := by
    rw [Nat.cast_mul, mul_right_comm]
  unfold contains Holds
  rw [hpair, hnum]
  dsimp only
  split
  · rw [Bool.and_eq_true, decide_eq_true_iff, decide_eq_true_iff, le_scaled_iff, scaled_le_iff]
  · rw [Bool.and_eq_true, decide_eq_true_iff, decide_eq_true_iff, lt_scaled_iff, scaled_lt_iff]

theorem contains_of_onGrid?_eq_some (h : w.onGrid? e = some n) : w.contains n e = true := by
  unfold onGrid? at h
  generalize (if e < 0 then (w.value * tenPow (-e).toNat, w.den)
    else (w.value, w.den * tenPow e.toNat)) = scaled at h
  dsimp only at h
  split at h
  · cases h
  · cases h
    assumption
  · cases h
    assumption
  · split at h
    · cases h
      assumption
    · cases h
      assumption

/-- A window that reaches more than half a step to either side of its value holds the nearer one of
    the neighbours. -/
theorem onGrid?_isSome (hden : 0 < w.den) (hl : (w.lower : ℚ) + w.den * 10 ^ e / 2 < w.value)
    (hu : (w.value : ℚ) + w.den * 10 ^ e / 2 < w.upper) : (w.onGrid? e).isSome = true := by
  have hpair : (if e < 0 then (w.value * tenPow (-e).toNat, w.den)
      else (w.value, w.den * tenPow e.toNat)) =
      (w.value * tenPow (-e).toNat, w.den * tenPow e.toNat) := by
    by_cases h : e < 0
    · rw [if_pos h, tenPow_toNat_of_neg h, Nat.mul_one]
    · rw [if_neg h, tenPow_neg_toNat h, Nat.mul_one]
  have hgrid := Nat.mul_pos hden (tenPow_pos e.toNat)
  unfold onGrid?
  rw [hpair]
  dsimp only
  have hbelow := Nat.div_mul_le_self (w.value * tenPow (-e).toNat) (w.den * tenPow e.toNat)
  have habove := Nat.lt_mul_of_div_lt (Nat.lt_succ_self _) hgrid
    (a := w.value * tenPow (-e).toNat)
  generalize w.value * tenPow (-e).toNat / (w.den * tenPow e.toNat) = below at hbelow habove ⊢
  have hstep := mul_pos (Nat.cast_pos (α := ℚ).mpr hden) (ten_zpow_pos e)
  rw [← Nat.mul_assoc, scaled_le_iff, Nat.cast_mul, mul_assoc] at hbelow
  rw [← Nat.mul_assoc, lt_scaled_iff, Nat.cast_mul, mul_assoc, Nat.cast_succ] at habove
  have hnear : w.contains below e = true ∨ w.contains (below + 1) e = true := by
    rw [contains_iff, contains_iff, Nat.cast_succ]
    rcases le_total ((w.value : ℚ) - below * (w.den * 10 ^ e)) (w.den * 10 ^ e / 2) with h | h
    · exact Or.inl (.of_lt (by linarith) (by linarith))
    · exact Or.inr (.of_lt (by linarith) (by linarith))
  cases hb : w.contains below e with
  | false =>
    rw [hb] at hnear
    rw [hnear.resolve_left Bool.false_ne_true]
    rfl
  | true => cases w.contains (below + 1) e <;> rfl

theorem contains_of_coarsest?_eq_some {g : Int} (h : w.coarsest? fuel e = some (n, g)) :
    w.contains n g = true := by
  induction fuel generalizing e with
  | zero => cases h
  | succ fuel ih =>
    unfold coarsest? at h
    split at h
    · rename_i k hk
      cases h
      exact contains_of_onGrid?_eq_some hk
    · exact ih h

theorem exists_coarsest?_eq_some {k : Nat} (hk : k < fuel) (h : (w.onGrid? (e - k)).isSome = true) :
    ∃ n g, w.coarsest? fuel e = some (n, g) := by
  induction fuel generalizing e k with
  | zero => omega
  | succ fuel ih =>
    unfold coarsest?
    split
    · exact ⟨_, _, rfl⟩
    · rename_i hnone
      obtain _ | k := k
      · rw [Nat.cast_zero, sub_zero, hnone] at h
        cases h
      · apply ih (Nat.lt_of_succ_lt_succ hk)
        rwa [Nat.cast_succ, add_comm, ← sub_sub] at h

end Window

/-! ### The leading digit -/

section Leading

variable {a b num den steps : Nat} {e x : Int}

theorem scaledLe_iff : scaledLe a e b = true ↔ (a : ℚ) * 10 ^ e ≤ b := by
  rw [← scaled_le_iff]
  unfold scaledLe
  by_cases h : e < 0
  · rw [if_pos h, decide_eq_true_iff, tenPow_toNat_of_neg h, Nat.mul_one]
  · rw [if_neg h, decide_eq_true_iff, tenPow_neg_toNat h, Nat.mul_one]

theorem scaledLe_climb (h : scaledLe den e num = true) :
    scaledLe den (climb num den steps e) num = true := by
  induction steps generalizing e with
  | zero => exact h
  | succ steps ih =>
    unfold climb
    split
    · exact ih ‹_›
    · exact h

/-- Where the climb starts: `1233 / 4096` is a little less than the decimal logarithm of two, so the
    two steps taken off are more than it is short of for any exponent that a format has. -/
theorem ten_zpow_le_two_zpow (h : -8192 ≤ x) : (10 : ℚ) ^ (x * 1233 / 4096 - 2) ≤ 2 ^ x := by
  have hlow : (10 : ℚ) ^ 1233 ≤ 2 ^ 4096 := by
    have h : tenPow 1233 ≤ twoPow 4096 := by decide +kernel
    rw [← cast_tenPow, ← cast_twoPow]
    exact Nat.cast_le.mpr h
  have hhigh : (2 : ℚ) ^ 4096 ≤ 10 ^ 1234 := by
    have h : twoPow 4096 ≤ tenPow 1234 := by decide +kernel
    rw [← cast_tenPow, ← cast_twoPow]
    exact Nat.cast_le.mpr h
  have hexponent : (x * 1233 / 4096 - 2) * 4096 ≤ 1233 * x - 8192 := by omega
  rw [← pow_le_pow_iff_left₀ (zpow_nonneg (by norm_num) _) (zpow_nonneg (by norm_num) _)
    (by norm_num : 4096 ≠ 0)]
  calc
    ((10 : ℚ) ^ (x * 1233 / 4096 - 2)) ^ 4096 = 10 ^ ((x * 1233 / 4096 - 2) * 4096) := by
      rw [← zpow_natCast, ← zpow_mul]
      norm_num
    _ ≤ 10 ^ (1233 * x - 8192) := zpow_le_zpow_right₀ (by norm_num) hexponent
    _ ≤ (2 ^ 4096) ^ x := ?_
    _ = ((2 : ℚ) ^ x) ^ 4096 := by
      rw [← zpow_natCast, ← zpow_natCast, ← zpow_mul, ← zpow_mul, mul_comm]
  rcases Int.le_total 0 x with hx | hx
  · obtain ⟨n, rfl⟩ := Int.eq_ofNat_of_zero_le hx
    calc
      (10 : ℚ) ^ (1233 * (n : Int) - 8192) ≤ 10 ^ ((1233 * n : Nat) : Int) :=
        zpow_le_zpow_right₀ (by norm_num) (by omega)
      _ = (10 ^ 1233) ^ n := by rw [zpow_natCast, pow_mul]
      _ ≤ (2 ^ 4096) ^ n := pow_le_pow_left₀ (by positivity) hlow n
      _ = (2 ^ 4096) ^ (n : Int) := (zpow_natCast _ n).symm
  · obtain ⟨n, hn⟩ := Int.eq_ofNat_of_zero_le (Int.neg_nonneg_of_nonpos hx)
    obtain rfl : x = -(n : Int) := by omega
    calc
      (10 : ℚ) ^ (1233 * -(n : Int) - 8192) ≤ 10 ^ (-((1234 * n : Nat) : Int)) :=
        zpow_le_zpow_right₀ (by norm_num) (by omega)
      _ = ((10 ^ 1234) ^ n)⁻¹ := by rw [zpow_neg, zpow_natCast, pow_mul]
      _ ≤ ((2 ^ 4096) ^ n)⁻¹ :=
        inv_anti₀ (by positivity) (pow_le_pow_left₀ (by positivity) hhigh n)
      _ = (2 ^ 4096) ^ (-(n : Int)) := by rw [zpow_neg, zpow_natCast]

theorem scaledLe_leadingExponent {k : Nat} (hnum : num ≠ 0) (hk : k ≤ 8192) :
    scaledLe (twoPow k) (leadingExponent num (twoPow k)) num = true := by
  have hlog : (twoPow k).log2 = k := Nat.log2_two_pow
  unfold leadingExponent
  rw [hlog]
  apply scaledLe_climb
  rw [scaledLe_iff, cast_twoPow]
  calc
    (2 : ℚ) ^ k * 10 ^ (((num.log2 : Int) - k) * 1233 / 4096 - 2) ≤
        2 ^ k * 2 ^ ((num.log2 : Int) - k) :=
      mul_le_mul_of_nonneg_left (ten_zpow_le_two_zpow (by omega)) (by positivity)
    _ = 2 ^ num.log2 := by
      rw [← zpow_natCast, ← zpow_add₀ (by norm_num), add_sub_cancel, zpow_natCast]
    _ ≤ num := by
      rw [← cast_twoPow]
      exact Nat.cast_le.mpr (Nat.log2_self_le hnum)

end Leading

/-! ### Seventeen digits -/

section Shortest

variable {f : Format} {m p q : Nat} {r : ℚ}

theorem spacing_mono (f : Format) : Monotone f.spacing := fun _ _ h =>
  twoPow_le_twoPow (Nat.sub_le_sub_right (Nat.div_le_div_right h) 1)

theorem twoPow_fractionBits_lt (f : Format) : twoPow (f.fractionBits + 1) < tenPow 16 := by
  cases f <;> decide

/-- The step of the sixteenth grid below the leading digit is less than twice the spacing of the
    positions, below as well as above. -/
theorem exists_coarsest?_window (hp : 0 < p) :
    ∃ n g, (window f p).coarsest? 17
      (leadingExponent (window f p).value (window f p).den) = some (n, g) := by
  obtain ⟨m, rfl⟩ : ∃ m, p = m + 1 := ⟨p - 1, by omega⟩
  have hpos := Format.units_pos (f := f) hp
  have hvalue : 2 * f.units (m + 1) ≠ 0 := by omega
  have hlead : ((window f (m + 1)).den : ℚ) *
      10 ^ leadingExponent (window f (m + 1)).value (window f (m + 1)).den ≤
        (2 * f.units (m + 1) : Nat) :=
    scaledLe_iff.mp (scaledLe_leadingExponent hvalue (by cases f <;> decide))
  apply Window.exists_coarsest?_eq_some (k := 16) (by decide)
  generalize leadingExponent (window f (m + 1)).value (window f (m + 1)).den = e at hlead ⊢
  have hstep : ((window f (m + 1)).den : ℚ) * 10 ^ (e - (16 : Nat)) / 2 < f.spacing m := by
    have hle : (f.units (m + 1) : ℚ) ≤ twoPow (f.fractionBits + 1) * f.spacing m :=
      mod_cast f.units_succ_le m
    have hdigits : (twoPow (f.fractionBits + 1) : ℚ) < 10 ^ 16 := by
      rw [← cast_tenPow]
      exact Nat.cast_lt.mpr (twoPow_fractionBits_lt f)
    have hspacing : (0 : ℚ) < f.spacing m := Nat.cast_pos.mpr (f.spacing_pos m)
    rw [zpow_sub₀ (by norm_num), zpow_natCast, mul_div_assoc', div_div,
      div_lt_iff₀ (by norm_num)]
    rw [Nat.cast_mul, Nat.cast_ofNat] at hlead
    nlinarith
  have hmono : (f.spacing m : ℚ) ≤ f.spacing (m + 1) := mod_cast spacing_mono f m.le_succ
  have hbelow : (f.units (m + 1) : ℚ) = f.units m + f.spacing m := mod_cast f.units_succ m
  have habove : (f.units (m + 1 + 1) : ℚ) = f.units (m + 1) + f.spacing (m + 1) :=
    mod_cast f.units_succ (m + 1)
  apply Window.onGrid?_isSome (twoPow_pos _)
  · change ((f.units m + f.units (m + 1) : Nat) : ℚ) + _ < (2 * f.units (m + 1) : Nat)
    push_cast
    linarith
  · change ((2 * f.units (m + 1) : Nat) : ℚ) + _ < (f.units (m + 1) + f.units (m + 1 + 1) : Nat)
    push_cast
    linarith

/-- A ratio lies in the window of one position only: neighbouring windows share one end, which only
    one of them takes. -/
theorem window_unique (hr : (window f p).Holds r) (hr' : (window f q).Holds r) : p = q := by
  by_contra hne
  wlog hlt : p < q generalizing p q
  · exact this hr' hr (Ne.symm hne) (by omega)
  have hupper := hr.le.2
  have hlower := hr'.le.1
  have hden : (window f p).den = (window f q).den := rfl
  rw [← hden] at hlower
  have hmeet : (window f q).lower ≤ (window f p).upper := Nat.cast_le.mp (hlower.trans hupper)
  change f.units (q - 1) + f.units q ≤ f.units p + f.units (p + 1) at hmeet
  have hfirst := f.units_strictMono.le_iff_le.mpr (show p ≤ q - 1 by omega)
  have hsecond := f.units_strictMono.le_iff_le.mpr (show p + 1 ≤ q by omega)
  obtain rfl : q = p + 1 := f.units_strictMono.injective (by omega)
  have hshared : (window f (p + 1)).lower = (window f p).upper := rfl
  rcases Nat.mod_two_eq_zero_or_one p with heven | hodd
  · have hopen : (window f (p + 1)).closed = false := decide_eq_false (by omega)
    unfold Window.Holds at hr'
    rw [hopen, if_neg Bool.false_ne_true, hshared] at hr'
    exact (hr'.1.trans_le hupper).false
  · have hopen : (window f p).closed = false := decide_eq_false (by omega)
    unfold Window.Holds at hr
    rw [hopen, if_neg Bool.false_ne_true, ← hshared] at hr
    exact (hr.2.trans_le hlower).false

end Shortest

/-! ### Exact values of decimals -/

/-- The number that a decimal stands for. -/
def value (d : Decimal) : ℚ := d.digits * 10 ^ (d.exponent + 1 - (toString d.digits).length)

section Value

variable {f : Format} {n p q : Nat} {e : Int}

theorem length_toString (n : Nat) : (toString n).length = (Nat.toDigits 10 n).length := by
  rw [Nat.toString_eq_ofList_toDigits, String.length_ofList]

theorem length_toString_mul_ten (hn : 0 < n) :
    (toString (n * 10)).length = (toString n).length + 1 := by
  rw [length_toString, length_toString, Nat.toDigits_of_base_le (by decide) (by omega),
    Nat.mul_div_cancel _ (by decide), List.length_append, List.length_singleton]

theorem trim_spec (hn : 0 < n) :
    ∃ k, n = trim n * 10 ^ k ∧ (toString n).length = (toString (trim n)).length + k := by
  fun_induction trim n with
  | case1 n h ih =>
    have hdiv : n = n / 10 * 10 := by omega
    have hpos : 0 < n / 10 := by omega
    obtain ⟨k, hk, hlength⟩ := ih hpos
    refine ⟨k + 1, ?_, ?_⟩
    · rw [pow_succ, ← mul_assoc, ← hk]
      exact hdiv
    · rw [hdiv, length_toString_mul_ten hpos, hlength, ← hdiv, add_assoc]
  | case2 n h => exact ⟨0, by rw [pow_zero, mul_one], rfl⟩

theorem value_trim (hn : 0 < n) :
    value ⟨trim n, e + (toString n).length - 1⟩ = n * 10 ^ e := by
  obtain ⟨k, hk, hlength⟩ := trim_spec hn
  have hexponent : e + (toString n).length - 1 + 1 - (toString (trim n)).length = k + e := by
    omega
  have hcast : (n : ℚ) = trim n * 10 ^ k := mod_cast hk
  unfold value
  dsimp only
  rw [hexponent, zpow_add₀ (by norm_num), zpow_natCast, ← mul_assoc, ← hcast]

theorem window_pos {r : ℚ} (hp : 0 < p) (hr : (window f p).Holds r) : 0 < r := by
  have hlower : 0 < (window f p).lower := Nat.add_pos_right _ (Format.units_pos hp)
  have hscaled : 0 < r * (window f p).den := (Nat.cast_pos.mpr hlower).trans_le hr.le.1
  exact (pos_iff_pos_of_mul_pos hscaled).mpr (Nat.cast_pos.mpr (twoPow_pos _))

theorem holds_value_shortest (hp : 0 < p) : (window f p).Holds (value (shortest f p)) := by
  obtain ⟨n, g, hn⟩ := exists_coarsest?_window (f := f) hp
  have hholds := Window.contains_iff.mp (Window.contains_of_coarsest?_eq_some hn)
  have hpos := window_pos hp hholds
  have hn0 : 0 < n := by
    apply Nat.pos_of_ne_zero
    rintro rfl
    rw [Nat.cast_zero, zero_mul] at hpos
    exact hpos.false
  unfold shortest
  rw [if_neg hp.ne']
  dsimp only
  rw [hn]
  dsimp only
  rwa [value_trim hn0]

theorem value_shortest_zero (f : Format) : value (shortest f 0) = 0 := zero_mul _

theorem value_shortest_pos (f : Format) (hp : 0 < p) : 0 < value (shortest f p) :=
  window_pos hp (holds_value_shortest hp)

/-- No two positions have the same shortest decimal. -/
theorem value_shortest_injective (f : Format) :
    Function.Injective fun p => value (shortest f p) := by
  intro p q h
  dsimp only at h
  rcases Nat.eq_zero_or_pos p with rfl | hp <;> rcases Nat.eq_zero_or_pos q with rfl | hq
  · rfl
  · rw [value_shortest_zero] at h
    exact absurd h (value_shortest_pos f hq).ne
  · rw [value_shortest_zero] at h
    exact absurd h (value_shortest_pos f hp).ne'
  · have hholds := holds_value_shortest (f := f) hp
    rw [h] at hholds
    exact window_unique hholds (holds_value_shortest hq)

end Value

end Decimal
end DifferentialPrivacy
