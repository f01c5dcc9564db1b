import DifferentialPrivacy.Accounting.Conversion
import DifferentialPrivacy.Proofs.Accounting.ReportedLoss
import DifferentialPrivacy.Proofs.Number.ElementaryAccuracy
import DifferentialPrivacy.Proofs.Number.Midpoint

set_option autoImplicit false

/-!
# Bisection of the slope

The ends of the bisection lie in order and from one on, whatever the slopes between them are: a
midpoint that is not an end lies strictly between the ends, so every step leaves fewer positions. It
stops when the ends are neighbours, or at once when the upper end is infinite.
-/
namespace DifferentialPrivacy

namespace Binary

variable {f : Format} {x : Binary f} {p : Nat}

theorem isNan_of_zero_le (h : zero.le x = true) : x.isNan = false := by
  obtain ⟨p, negative, hp, rfl, -⟩ := exists_at_of_zero_le h
  rfl

theorem exists_at_neg_of_lt_zero (h : x.lt zero = true) : ∃ p, (-x).At p := by
  cases x with
  | nan => cases h
  | signed negative p hp =>
    cases negative with
    | true => exact ⟨p, positive_at hp⟩
    | false =>
      have hlt : (p : Int) < 0 := of_decide_eq_true h
      omega

theorem At.isInfinite_iff (h : x.At p) : x.isInfinite = true ↔ p = f.infinity := by
  obtain ⟨negative, hp, rfl, -⟩ := h
  exact decide_eq_true_iff

theorem sqrt_at (hx : x.At p) : ∃ r, x.sqrt.At r := by
  obtain ⟨negative, hp, rfl, hzero⟩ := id hx
  unfold sqrt
  dsimp only
  split_ifs with h0 hsign hinf
  · exact ⟨p, hx⟩
  · exact absurd (hzero hsign) h0
  · exact ⟨p, hx⟩
  · exact ⟨_, positive_at _⟩

/-- What is added to two leaves it at two or above. -/
theorem two_add_at (hx : x.At p) : ∃ b, (two + x).At b ∧ f.one + twoPow f.fractionBits ≤ b := by
  rcases hx.le_infinity.eq_or_lt with rfl | hp
  · rw [hx.eq_infinity, add_infinity (two_at f) f.one_add_lt_infinity]
    exact ⟨_, infinity_at f, f.one_add_lt_infinity.le⟩
  · exact ⟨_, add_at (two_at f) hx f.one_add_lt_infinity hp,
      Format.le_nearest Nat.one_pos f.one_add_lt_infinity.le (by omega)⟩

theorem exists_div_at {y : Binary f} {q : Nat} (hx : x.At p) (hy : y.At q) (hq0 : 0 < q)
    (hq : q < f.infinity) : ∃ r, (x / y).At r := by
  rcases hx.le_infinity.eq_or_lt with rfl | hp
  · rw [hx.eq_infinity, infinity_div hy hq0 hq]
    exact ⟨_, infinity_at f⟩
  · exact ⟨_, div_at hx hy hp hq hq0⟩

/-! ### Differences with one -/

section Difference

variable (hx : x.At p) (h : f.one < p)
include hx h

theorem zero_lt_subUp_one : zero.lt (x.subUp one) = true := by
  rcases hx.le_infinity.eq_or_lt with rfl | hp
  · have hsum : infinity + -(one : Binary f) = infinity := infinity_sub (one_at f) f.one_lt_infinity
    rw [hx.eq_infinity]
    unfold subUp addUp
    dsimp only
    rw [hsum, if_neg fun hstep => not_isFinite_infinity f hstep.1, (zero_at f).lt_iff (infinity_at f)]
    exact f.zero_lt_infinity
  · obtain ⟨u, hu, hle, -⟩ := subUp_at hx (one_at f) hp f.one_lt_infinity h.le
    have hlt := f.units_strictMono h
    rw [(zero_at f).lt_iff hu, ← f.units_strictMono.lt_iff_lt, f.units_zero]
    omega

/-- One step down from the nearest difference, which is two positions above zero or more, does not
    reach zero. -/
theorem zero_lt_subDown_one : zero.lt (x.subDown one) = true := by
  have hinf := f.zero_lt_infinity
  rcases hx.le_infinity.eq_or_lt with rfl | hp
  · have hsum : (one : Binary f) + -infinity = -infinity := by
      change add (signed false f.one _) (signed true f.infinity _) = _
      unfold add
      exact (if_neg h.ne).trans (if_pos rfl)
    rw [hx.eq_infinity]
    unfold subDown addUp
    dsimp only
    rw [hsum, if_neg fun hstep => not_isFinite_infinity f ((isFinite_neg _).symm.trans hstep.1)]
    exact ((zero_at f).lt_iff (infinity_at f)).mpr hinf
  · generalize hs : f.nearest (f.units p - f.units f.one) 1 = s
    have hsum : (-(one + -x)).At s := by
      rw [← hs]
      apply neg_add_at ((one_at f).isFinite_iff.mpr f.one_lt_infinity)
        ((isFinite_neg x).trans (hx.isFinite_iff.mpr hp))
      have hlt := f.units_strictMono h
      rw [(one_at f).units_eq, units_neg, hx.units_eq]
      omega
    have hwide : f.spacing f.one ≤ f.units s := by
      have hnext : f.units (f.one + 1) ≤ f.units p := f.units_strictMono.monotone h
      have hsucc := f.units_succ f.one
      have hspacing := Format.mul_spacing_le_units_nearest_sub (k := 1) h hp hs (twoPow_pos _)
        (by omega)
      rwa [Nat.one_mul] at hspacing
    have htwo : 2 ≤ s := by
      have hone : f.units 1 < f.spacing f.one := by
        have hsmall : f.units 1 < twoPow (f.fractionBits + 1) := by cases f <;> decide
        exact hsmall.trans_le f.spacing_one.1
      exact f.units_strictMono.lt_iff_lt.mp (hone.trans_le hwide)
    unfold subDown addUp
    dsimp only
    split
    · obtain ⟨r, rfl⟩ : ∃ r, s = r + 1 := ⟨s - 1, by omega⟩
      rw [(zero_at f).lt_iff (neg_nextUp_at hsum)]
      omega
    · rw [(zero_at f).lt_iff hsum]
      omega

end Difference

end Binary

open Binary

variable {f : Format} {ρ L : Binary f} {ends ends' : Binary f × Binary f}
  {a b l n r steps : Nat}

/-- The positions of the two ends. -/
structure Brackets (ends : Binary f × Binary f) (a b : Nat) : Prop where
  low : ends.1.At a
  high : ends.2.At b
  one_le : f.one ≤ a
  lt : a < b

theorem Brackets.gap_eq (h : Brackets ends a b) : ends.1.gap ends.2 = b - a := by
  unfold gap
  rw [h.low.ordinal?_eq, h.high.ordinal?_eq]
  exact Int.toNat_sub b a

theorem Brackets.one_le_low (h : Brackets ends a b) : one.le ends.1 = true :=
  ((one_at f).le_iff h.low).mpr h.one_le

theorem Brackets.low_lt_high (h : Brackets ends a b) : ends.1.lt ends.2 = true :=
  (h.low.lt_iff h.high).mpr h.lt

theorem Brackets.one_lt_high (h : Brackets ends a b) : one.lt ends.2 = true :=
  ((one_at f).lt_iff h.high).mpr (h.one_le.trans_lt h.lt)

/-! ### The start -/

theorem brackets_start (hL : L.At l) (hρ : ρ.At r) (hr0 : 0 < r) (hr : r < f.infinity) :
    ∃ b, Brackets (bisectionStart ρ L) f.one b := by
  obtain ⟨q, hq⟩ := exists_div_at hL hρ hr0 hr
  obtain ⟨s, hs⟩ := sqrt_at hq
  obtain ⟨b, hb, hle⟩ := two_add_at hs
  have := twoPow_pos f.fractionBits
  exact ⟨b, one_at f, hb, le_rfl, by omega⟩

section Elementary

variable [Elementary]

/-! ### Steps -/

/-- A step puts one end in its place between the two, on the side that the slope there says. -/
theorem Brackets.of_bisectOnce? (h : Brackets ends a b)
    (hstep : bisectOnce? ρ L ends = some ends') : ∃ m mid, a < m ∧ m < b ∧
      ((epsilonSlope ρ L mid).lt .zero = true ∧ ends' = (mid, ends.2) ∧
          Brackets ends' m b ∨
        (epsilonSlope ρ L mid).lt .zero = false ∧ ends' = (ends.1, mid) ∧
          Brackets ends' a m) := by
  obtain ⟨m, hm, ham, hmb, -⟩ := midpoint_at h.low h.high h.one_le h.lt
  obtain ⟨low, high⟩ := ends
  unfold bisectOnce? at hstep
  dsimp only at hstep h hm
  generalize low + (high - low) / two = mid at hstep hm
  split at hstep
  · cases hstep
  · rename_i hbetween
    obtain ⟨hlow, hhigh⟩ : m ≠ a ∧ m ≠ b := by
      rw [Bool.or_eq_true, not_or, hm.eq_iff h.low, hm.eq_iff h.high] at hbetween
      exact hbetween
    refine ⟨m, mid, by omega, by omega, ?_⟩
    cases hslope : (epsilonSlope ρ L mid).lt .zero with
    | true =>
      rw [hslope] at hstep
      obtain rfl := Option.some.inj hstep
      exact Or.inl ⟨rfl, rfl, hm, h.high, h.one_le.trans ham, by omega⟩
    | false =>
      rw [hslope] at hstep
      obtain rfl := Option.some.inj hstep
      exact Or.inr ⟨rfl, rfl, h.low, hm, h.one_le, by omega⟩

theorem Brackets.bisectOnce?_eq_none_iff (h : Brackets ends a b) :
    bisectOnce? ρ L ends = none ↔ b = a + 1 ∨ b = f.infinity := by
  obtain ⟨m, hm, ham, hmb, hinside, hinfinity⟩ := midpoint_at h.low h.high h.one_le h.lt
  have hends : bisectOnce? ρ L ends = none ↔ m = a ∨ m = b := by
    obtain ⟨low, high⟩ := ends
    unfold bisectOnce?
    dsimp only at h hm ⊢
    rw [← hm.eq_iff h.low, ← hm.eq_iff h.high, ← Bool.or_eq_true]
    split
    · exact ⟨fun _ => ‹_›, fun _ => rfl⟩
    · split <;> exact ⟨fun hnone => (by cases hnone), fun heq => absurd heq ‹_›⟩
  have hlt := h.lt
  rw [hends]
  constructor
  · intro hm
    by_contra hmore
    obtain ⟨hgap, hfinite⟩ := not_or.mp hmore
    have := hinside (h.high.le_infinity.lt_of_ne hfinite) (by omega)
    omega
  · rintro (hnext | hfar)
    · omega
    · right
      rw [hinfinity hfar, hfar]

/-! ### Runs -/

/-- So many steps lead from some ends to others. -/
inductive Bisects (ρ L : Binary f) :
    Binary f × Binary f → Nat → Binary f × Binary f → Prop
  | refl (ends : Binary f × Binary f) : Bisects ρ L ends 0 ends
  | next {ends ends' ends'' : Binary f × Binary f} {n : Nat}
      (h : bisectOnce? ρ L ends = some ends')
      (tail : Bisects ρ L ends' n ends'') : Bisects ρ L ends (n + 1) ends''

/-- Every step takes away one position at least. -/
theorem Bisects.brackets (hrun : Bisects ρ L ends n ends') (h : Brackets ends a b) :
    ∃ a' b', Brackets ends' a' b' ∧ n + (b' - a') ≤ b - a := by
  induction hrun generalizing a b with
  | refl ends => exact ⟨a, b, h, (Nat.zero_add _).le⟩
  | next hstep _ ih =>
    obtain ⟨m, mid, ham, hmb, ⟨-, -, h'⟩ | ⟨-, -, h'⟩⟩ := h.of_bisectOnce? hstep
    · obtain ⟨a', b', hends, hle⟩ := ih h'
      exact ⟨a', b', hends, by omega⟩
    · obtain ⟨a', b', hends, hle⟩ := ih h'
      exact ⟨a', b', hends, by omega⟩

/-- An end that has moved is on the side that the slope there says. -/
theorem Bisects.slopes (hrun : Bisects ρ L ends n ends') (h : Brackets ends a b) :
    (ends'.1 = ends.1 ∨ (epsilonSlope ρ L ends'.1).lt .zero = true) ∧
      (ends'.2 = ends.2 ∨ (epsilonSlope ρ L ends'.2).lt .zero = false) ∧
      ∃ a' b', Brackets ends' a' b' ∧ b' ≤ b := by
  induction hrun generalizing a b with
  | refl ends => exact ⟨Or.inl rfl, Or.inl rfl, a, b, h, le_rfl⟩
  | next hstep _ ih =>
    obtain ⟨m, mid, -, hmb, ⟨hneg, rfl, h'⟩ | ⟨hnonneg, rfl, h'⟩⟩ := h.of_bisectOnce? hstep
    · obtain ⟨hlow, hhigh, hends⟩ := ih h'
      refine ⟨Or.inr ?_, hhigh, hends⟩
      rcases hlow with heq | hslope
      · rwa [heq]
      · exact hslope
    · obtain ⟨hlow, hhigh, a', b', hends, hle⟩ := ih h'
      refine ⟨hlow, Or.inr ?_, a', b', hends, by omega⟩
      rcases hhigh with heq | hslope
      · rwa [heq]
      · exact hslope

/-- With as many steps as there are positions between the ends, the run is not cut off. -/
theorem Brackets.bisects (h : Brackets ends a b) (hsteps : b - a ≤ steps) :
    ∃ n, Bisects ρ L ends n (bisect ρ L steps ends) ∧
      bisectOnce? ρ L (bisect ρ L steps ends) = none := by
  induction steps generalizing ends a b with
  | zero =>
    have := h.lt
    omega
  | succ steps ih =>
    unfold bisect
    cases hstep : bisectOnce? ρ L ends with
    | none => exact ⟨0, .refl ends, hstep⟩
    | some ends' =>
      obtain ⟨m, mid, ham, hmb, ⟨-, -, h'⟩ | ⟨-, -, h'⟩⟩ := h.of_bisectOnce? hstep
      · obtain ⟨n, hrun, hend⟩ := ih h' (by omega)
        exact ⟨n + 1, .next hstep hrun, hend⟩
      · obtain ⟨n, hrun, hend⟩ := ih h' (by omega)
        exact ⟨n + 1, .next hstep hrun, hend⟩

/-- The run from the start ends at the order that is used. -/
theorem bisects_optimalAlpha (h : Brackets (bisectionStart ρ L) a b) :
    ∃ n ends, Bisects ρ L (bisectionStart ρ L) n ends ∧
      bisectOnce? ρ L ends = none ∧ ends.2 = optimalAlpha ρ L := by
  obtain ⟨n, hrun, hend⟩ := h.bisects (ρ := ρ) (L := L) h.gap_eq.ge
  exact ⟨n, _, hrun, hend, rfl⟩

/-- The order that a run from a finite start ends at is next to one where the slope is negative, and
    the slope is not negative there, unless these are the ends of the start. -/
theorem exists_neighbour (h : Brackets (bisectionStart ρ L) f.one b) (hb : b < f.infinity) :
    ∃ low a, low.At a ∧ (optimalAlpha ρ L).At (a + 1) ∧ f.one ≤ a ∧ a + 1 ≤ b ∧
      (a = f.one ∨ (epsilonSlope ρ L low).lt .zero = true) ∧
      (optimalAlpha ρ L = (bisectionStart ρ L).2 ∨
        (epsilonSlope ρ L (optimalAlpha ρ L)).lt .zero = false) := by
  obtain ⟨n, ends, hrun, hend, hlast⟩ := bisects_optimalAlpha h
  obtain ⟨hlow, hhigh, a', b', hends, hle⟩ := hrun.slopes h
  obtain rfl : b' = a' + 1 := by
    rcases hends.bisectOnce?_eq_none_iff.mp hend with heq | hinf
    · exact heq
    · omega
  rw [← hlast]
  refine ⟨ends.1, a', hends.low, hends.high, hends.one_le, hle, hlow.imp_left fun heq => ?_, hhigh⟩
  exact (heq ▸ hends.low).unique h.low

end Elementary

theorem exists_approximateEpsilon [Elementary] {δ : Binary f} (hρ : zero.le ρ = true)
    (hδ : zero.lt δ = true) (hone : δ.lt one = true) : ∃ ε, approximateEpsilon ρ δ = .ok ε := by
  unfold approximateEpsilon
  rw [hρ, hδ, hone]
  cases ρ.isZero
  · cases ρ.isInfinite <;> exact ⟨_, rfl⟩
  · exact ⟨_, rfl⟩

/-- The conversion has a number that is not negative for every `ρ` and every `δ` it is meant for, and
    an error for all others. The ends of the bisection stay in order and from one on, the run stops,
    and the order that it ends at is above one by a number that is not zero, rounded either way. -/
theorem approximateEpsilon_total [Elementary]
    (hln : ∀ x : Binary f, zero.lt x = true → x.lt one = true → (Elementary.ln x).lt zero = true)
    (ρ δ : Binary f) :
    (zero.le ρ = true → zero.lt δ = true → δ.lt one = true →
      (∃ ε, approximateEpsilon ρ δ = .ok ε ∧ ε.isNan = false ∧ zero.le ε = true) ∧
      (ρ.isZero = false → ρ.isInfinite = false →
        (∀ n ends, Bisects ρ (-Elementary.ln δ) (bisectionStart ρ (-Elementary.ln δ)) n ends →
          one.le ends.1 = true ∧ ends.1.lt ends.2 = true) ∧
        (∃ n ends, Bisects ρ (-Elementary.ln δ) (bisectionStart ρ (-Elementary.ln δ)) n ends ∧
          bisectOnce? ρ (-Elementary.ln δ) ends = none ∧
          ends.2 = optimalAlpha ρ (-Elementary.ln δ)) ∧
        one.lt (optimalAlpha ρ (-Elementary.ln δ)) = true ∧
        zero.lt ((optimalAlpha ρ (-Elementary.ln δ)).subDown one) = true ∧
        zero.lt ((optimalAlpha ρ (-Elementary.ln δ)).subUp one) = true)) ∧
    (¬(zero.le ρ = true ∧ zero.lt δ = true ∧ δ.lt one = true) →
      ∃ value, approximateEpsilon ρ δ = .error (.undefinedMap value)) := by
  constructor
  · intro hρ hδ hone
    constructor
    · obtain ⟨ε, hε⟩ := exists_approximateEpsilon hρ hδ hone
      have hnonneg := nonNegative_approximateEpsilon ρ δ ε hε
      exact ⟨ε, hε, isNan_of_zero_le hnonneg, hnonneg⟩
    · intro hρ0 hρinf
      obtain ⟨r, hr⟩ := exists_at_of_zero_le hρ
      obtain ⟨l, hl⟩ := exists_at_neg_of_lt_zero (hln δ hδ hone)
      have hr0 : 0 < r := Nat.pos_of_ne_zero fun h => by
        rw [hr.isZero_iff.mpr h] at hρ0
        cases hρ0
      have hrf : r < f.infinity := hr.le_infinity.lt_of_ne fun h => by
        rw [hr.isInfinite_iff.mpr h] at hρinf
        cases hρinf
      obtain ⟨b, hstart⟩ := brackets_start hl hr hr0 hrf
      obtain ⟨n, ends, hrun, hend, hlast⟩ := bisects_optimalAlpha hstart
      obtain ⟨a', b', hends, -⟩ := hrun.brackets hstart
      rw [← hlast]
      refine ⟨fun n' ends' hrun' => ?_, ⟨n, ends, hrun, hend, rfl⟩, hends.one_lt_high, ?_, ?_⟩
      · obtain ⟨_, _, hends', -⟩ := hrun'.brackets hstart
        exact ⟨hends'.one_le_low, hends'.low_lt_high⟩
      · exact zero_lt_subDown_one hends.high (hends.one_le.trans_lt hends.lt)
      · exact zero_lt_subUp_one hends.high (hends.one_le.trans_lt hends.lt)
  · intro h
    unfold approximateEpsilon
    cases hρ : zero.le ρ with
    | false => exact ⟨_, rfl⟩
    | true =>
      have hδ : ¬(zero.lt δ && δ.lt one) = true := by
        rw [Bool.and_eq_true]
        exact fun hδ => h ⟨hρ, hδ⟩
      rw [Bool.eq_false_iff.mpr hδ]
      exact ⟨_, rfl⟩

/-- At a delta of one half, for the smallest `ρ` of all, whose bisection starts at infinity; and there is
    no loss at a delta of one. -/
theorem approximateEpsilon_total_half :
    (∀ x : Binary .binary64, zero.lt x = true → x.lt one = true →
      (Elementary.exact.ln x).lt zero = true) ∧
    (∃ ε, @approximateEpsilon .binary64 .exact (.signed false 1 (by decide))
      (.ofBits _ 0x3fe0000000000000) = .ok ε ∧ ε.isNan = false ∧ zero.le ε = true) ∧
    one.lt (@optimalAlpha .binary64 .exact (.signed false 1 (by decide))
      (-Elementary.exact.ln (.ofBits _ 0x3fe0000000000000))) = true ∧
    ∃ value, @approximateEpsilon .binary64 .exact (.signed false 1 (by decide)) .one =
      .error (.undefinedMap value) := by
  let _ := Elementary.exact
  have hln : ∀ x : Binary .binary64, zero.lt x = true → x.lt one = true →
      (Elementary.ln x).lt zero = true :=
    fun x => ln_lt_zero (Elementary.exact_lnAccurate .binary64)
  obtain ⟨hvalue, hrun⟩ := (approximateEpsilon_total hln (.signed false 1 (by decide))
    (.ofBits _ 0x3fe0000000000000)).1 (by decide +kernel) (by decide +kernel) (by decide +kernel)
  obtain ⟨-, -, halpha, -⟩ := hrun (by decide) (by decide)
  exact ⟨hln, hvalue, halpha,
    (approximateEpsilon_total hln _ _).2 fun h => absurd h.2.2 (by decide +kernel)⟩

end DifferentialPrivacy
