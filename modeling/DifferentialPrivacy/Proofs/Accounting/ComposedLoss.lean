import DifferentialPrivacy.Accounting.Composition
import DifferentialPrivacy.Proofs.Number.SumError

set_option autoImplicit false

/-!
# Composed losses as bounds on exact sums

Losses are added up from left to right, every sum rounded up. Each step gives the least bound on the
exact sum of its operands. So the total is never below the exact sum of all losses, and it is that
sum when the format has the exact sum of every beginning of the list.
-/
namespace DifferentialPrivacy

namespace Binary

variable {f : Format} {x y z acc : Binary f} {losses : List (Binary f)}

/-! ### One step -/

theorem zero_le_addUp (hx : zero.le x = true) (hy : zero.le y = true) :
    zero.le (x.addUp y) = true := by
  obtain ⟨p, hp⟩ := exists_at_of_zero_le hx
  obtain ⟨q, hq⟩ := exists_at_of_zero_le hy
  by_cases h : p = f.infinity ∨ q = f.infinity
  · rw [addUp_infinite hp hq h]
    exact ((zero_at f).le_iff (infinity_at f)).mpr (Nat.zero_le _)
  · obtain ⟨hpi, hqi⟩ := not_or.mp h
    obtain ⟨u, hu, -⟩ := addUp_at hp hq (hp.le_infinity.lt_of_ne hpi) (hq.le_infinity.lt_of_ne hqi)
    exact ((zero_at f).le_iff hu).mpr (Nat.zero_le _)

theorem not_isFinite_infinity (f : Format) : (infinity : Binary f).isFinite ≠ true :=
  fun h => Nat.lt_irrefl _ ((infinity_at f).isFinite_iff.mp h)

theorem eq_infinity_of_not_finite (hx : zero.le x = true) (h : x.isFinite ≠ true) :
    x = infinity := by
  obtain ⟨p, hp⟩ := exists_at_of_zero_le hx
  rcases hp.le_infinity.eq_or_lt with rfl | hlt
  · exact hp.eq_infinity
  · exact absurd (hp.isFinite_iff.mpr hlt) h

theorem AtLeast.of_isFinite {amount : ℚ} (h : z.AtLeast amount) (hz : z.isFinite = true) :
    amount ≤ z.value := by
  rcases h with rfl | ⟨-, h⟩
  · exact absurd hz (not_isFinite_infinity f)
  · exact h

theorem of_isFinite_addUp (hx : zero.le x = true) (hy : zero.le y = true)
    (h : (x.addUp y).isFinite = true) :
    x.isFinite = true ∧ y.isFinite = true ∧ x.value + y.value ≤ (x.addUp y).value := by
  obtain ⟨p, hp⟩ := exists_at_of_zero_le hx
  obtain ⟨q, hq⟩ := exists_at_of_zero_le hy
  have hfinite : ¬(p = f.infinity ∨ q = f.infinity) := by
    intro hinf
    rw [addUp_infinite hp hq hinf] at h
    exact not_isFinite_infinity f h
  obtain ⟨hpi, hqi⟩ := not_or.mp hfinite
  have hxf := hp.isFinite_iff.mpr (hp.le_infinity.lt_of_ne hpi)
  have hyf := hq.isFinite_iff.mpr (hq.le_infinity.lt_of_ne hqi)
  exact ⟨hxf, hyf, (addUp_least hxf hyf hx hy).1.of_isFinite h⟩

/-- A sum that the format has is not rounded. -/
theorem addUp_eq_of_value (hx : x.isFinite = true) (hy : y.isFinite = true) (hx0 : zero.le x = true)
    (hy0 : zero.le y = true) (hz : z.isFinite = true) (h : z.value = x.value + y.value) :
    (x.addUp y).isFinite = true ∧ (x.addUp y).value = x.value + y.value := by
  obtain ⟨hbound, hleast⟩ := addUp_least hx hy hx0 hy0
  have hle := hleast z (Or.inr ⟨hz, h.ge⟩)
  obtain ⟨u, hu⟩ := exists_at_of_zero_le (zero_le_addUp hx0 hy0)
  obtain ⟨p, hp⟩ := exists_at_of_zero_le hx0
  obtain ⟨q, hq⟩ := exists_at_of_zero_le hy0
  have hunits := value_add_value_le_iff.mp h.ge
  rw [hp.units_eq, hq.units_eq] at hunits
  obtain ⟨r, hr⟩ := exists_at_of_units_nonneg hz (by omega)
  rw [hu.le_iff hr] at hle
  have hfinite := hu.isFinite_iff.mpr (hle.trans_lt (hr.isFinite_iff.mp hz))
  exact ⟨hfinite, le_antisymm (h ▸ (hu.value_le_iff hr).mpr hle) (hbound.of_isFinite hfinite)⟩

/-! ### Lists of losses -/

theorem zero_le_foldl_addUp (hacc : zero.le acc = true) (h : ∀ x ∈ losses, zero.le x = true) :
    zero.le (losses.foldl addUp acc) = true := by
  induction losses generalizing acc with
  | nil => exact hacc
  | cons x losses ih =>
    obtain ⟨hx, hlosses⟩ := List.forall_mem_cons.mp h
    exact ih (zero_le_addUp hacc hx) hlosses

def exactSum (losses : List (Binary f)) : ℚ := (losses.map value).sum

theorem exactSum_cons (x : Binary f) (losses : List (Binary f)) :
    exactSum (x :: losses) = x.value + exactSum losses := List.sum_cons

theorem of_isFinite_foldl_addUp (hacc : zero.le acc = true) (h : ∀ x ∈ losses, zero.le x = true)
    (hfinite : (losses.foldl addUp acc).isFinite = true) :
    acc.isFinite = true ∧ (∀ x ∈ losses, x.isFinite = true) ∧
      acc.value + exactSum losses ≤ (losses.foldl addUp acc).value := by
  induction losses generalizing acc with
  | nil => exact ⟨hfinite, List.forall_mem_nil _, (add_zero acc.value).le⟩
  | cons x losses ih =>
    obtain ⟨hx, hlosses⟩ := List.forall_mem_cons.mp h
    obtain ⟨hsum, hall, hle⟩ := ih (zero_le_addUp hacc hx) hlosses hfinite
    obtain ⟨haccf, hxf, hstep⟩ := of_isFinite_addUp hacc hx hsum
    refine ⟨haccf, List.forall_mem_cons.mpr ⟨hxf, hall⟩, ?_⟩
    calc
      acc.value + exactSum (x :: losses) = acc.value + x.value + exactSum losses := by
        rw [exactSum_cons, add_assoc]
      _ ≤ (acc.addUp x).value + exactSum losses := by gcongr
      _ ≤ _ := hle

theorem foldl_addUp_exact (hacc : zero.le acc = true) (h : ∀ x ∈ losses, zero.le x = true)
    (haccf : acc.isFinite = true) (hall : ∀ x ∈ losses, x.isFinite = true)
    (hfit : ∀ n, ∃ z : Binary f, z.isFinite = true ∧
      z.value = acc.value + exactSum (losses.take n)) :
    (losses.foldl addUp acc).isFinite = true ∧
      (losses.foldl addUp acc).value = acc.value + exactSum losses := by
  induction losses generalizing acc with
  | nil => exact ⟨haccf, (add_zero acc.value).symm⟩
  | cons x losses ih =>
    obtain ⟨hx, hlosses⟩ := List.forall_mem_cons.mp h
    obtain ⟨hxf, hlossesf⟩ := List.forall_mem_cons.mp hall
    have hshift : ∀ n, acc.value + exactSum ((x :: losses).take (n + 1)) =
        acc.value + x.value + exactSum (losses.take n) := by
      intro n
      rw [List.take_succ_cons, exactSum_cons, add_assoc]
    obtain ⟨z, hz, hfirst⟩ := hfit 1
    rw [hshift 0, List.take_zero] at hfirst
    obtain ⟨hsumf, hsum⟩ := addUp_eq_of_value haccf hxf hacc hx hz (hfirst.trans (add_zero _))
    rw [exactSum_cons, ← add_assoc, ← hsum]
    apply ih (zero_le_addUp hacc hx) hlosses hsumf hlossesf
    intro n
    rw [hsum, ← hshift]
    exact hfit (n + 1)

/-- The format has the exact sum of every beginning of the list. -/
def PrefixesFit (losses : List (Binary f)) : Prop :=
  ∀ n, ∃ z : Binary f, z.isFinite = true ∧ z.value = exactSum (losses.take n)

/-- A total that is never below the exact sum, and is the exact sum where nothing is rounded. -/
structure Totals (losses : List (Binary f)) (total : Binary f) : Prop where
  covers : total = infinity ∨ (∀ x ∈ losses, x.isFinite = true) ∧ total.isFinite = true ∧
    exactSum losses ≤ total.value
  exact : (∀ x ∈ losses, x.isFinite = true) → PrefixesFit losses →
    total.isFinite = true ∧ total.value = exactSum losses

theorem zero_le_zero (f : Format) : zero.le (zero : Binary f) = true :=
  ((zero_at f).le_iff (zero_at f)).mpr (Nat.le_refl 0)

theorem sumUp_totals (h : ∀ x ∈ losses, zero.le x = true) : Totals losses (sumUp losses) where
  covers := by
    by_cases hfinite : (sumUp losses).isFinite = true
    · obtain ⟨-, hall, hle⟩ := of_isFinite_foldl_addUp (zero_le_zero f) h hfinite
      rw [value_zero, zero_add] at hle
      exact Or.inr ⟨hall, hfinite, hle⟩
    · exact Or.inl (eq_infinity_of_not_finite (zero_le_foldl_addUp (zero_le_zero f) h) hfinite)
  exact hall hfit := by
    have hexact := foldl_addUp_exact (zero_le_zero f) h
      ((zero_at f).isFinite_iff.mpr f.zero_lt_infinity) hall
    rw [value_zero] at hexact
    simp only [zero_add] at hexact
    exact hexact hfit

end Binary

/-- An upward sum is the least bound on the exact one. The losses of measurements compose to a total
    that is never below their exact sum, and is that sum where it need not be rounded on the way. -/
theorem composed_loss_covers (f : Format) :
    (∀ x y : Binary f, x.isFinite = true → y.isFinite = true → Binary.zero.le x = true →
      Binary.zero.le y = true → (x.addUp y).AtLeast (x.value + y.value) ∧
        ∀ z : Binary f, z.AtLeast (x.value + y.value) → (x.addUp y).le z = true) ∧
    (∀ losses : List (Binary f), (∀ x ∈ losses, Binary.zero.le x = true) →
      Binary.Totals losses (Composable.compose (μ := .maxDivergence f) losses) ∧
      Binary.Totals losses (Composable.compose (μ := .zeroConcentratedDivergence f) losses)) ∧
    ∀ losses : List (Binary f × Binary f),
      (∀ l ∈ losses, Binary.zero.le l.1 = true ∧ Binary.zero.le l.2 = true) →
      Binary.Totals (losses.map Prod.fst)
        (Composable.compose (μ := .fixedSmoothedMaxDivergence f) losses).1 ∧
      Binary.Totals (losses.map Prod.snd)
        (Composable.compose (μ := .fixedSmoothedMaxDivergence f) losses).2 := by
  refine ⟨fun x y => Binary.addUp_least, fun losses h => ?_, fun losses h => ?_⟩
  · exact ⟨Binary.sumUp_totals h, Binary.sumUp_totals h⟩
  · exact ⟨Binary.sumUp_totals (List.forall_mem_map.mpr fun l hl => (h l hl).1),
      Binary.sumUp_totals (List.forall_mem_map.mpr fun l hl => (h l hl).2)⟩

/-- The smallest positive number is added to one twice and, in the other component, to itself. -/
theorem composed_loss_covers_smallest :
    ∃ tiny : Binary .binary64, tiny = .nextUp .zero ∧
      (∀ z : Binary .binary64, z.AtLeast ((.one : Binary .binary64).value + tiny.value) →
        (Binary.nextUp .one).le z = true) ∧
      Binary.Totals [.one, tiny, tiny] (Binary.nextUp (.nextUp .one)) ∧
      Binary.Totals [tiny, tiny] (Binary.nextUp tiny) ∧
      Binary.value (Composable.compose (μ := .zeroConcentratedDivergence .binary64)
        [.one, .one]) = 2 := by
  obtain ⟨hstep, hsingle, hpair⟩ := composed_loss_covers .binary64
  refine ⟨.nextUp .zero, rfl, ?_, ?_, ?_, ?_⟩
  · have hsum : (.one : Binary .binary64).addUp (.nextUp .zero) = .nextUp .one := by decide +kernel
    rw [← hsum]
    exact (hstep .one (.nextUp .zero) (by decide +kernel) (by decide +kernel) (by decide +kernel)
      (by decide +kernel)).2
  · have hsum : Composable.compose (μ := .maxDivergence .binary64)
        [.one, .nextUp .zero, .nextUp .zero] = .nextUp (.nextUp .one) := by decide +kernel
    rw [← hsum]
    exact (hsingle [.one, .nextUp .zero, .nextUp .zero] (by decide +kernel)).1
  · have hsum : (Composable.compose (μ := .fixedSmoothedMaxDivergence .binary64)
        [(.one, .nextUp .zero), (.nextUp .zero, .nextUp .zero)]).2 = .nextUp (.nextUp .zero) := by
      decide +kernel
    rw [← hsum]
    exact (hpair [(.one, .nextUp .zero), (.nextUp .zero, .nextUp .zero)] (by decide +kernel)).2
  · have hsum : Binary.exactSum [(.one : Binary .binary64), .one] = 2 := by
      rw [Binary.exactSum_cons, Binary.exactSum_cons, Binary.value_one]
      norm_num [Binary.exactSum]
    have hfit : Binary.PrefixesFit [(.one : Binary .binary64), .one]
      | 0 => ⟨.zero, by decide +kernel, Binary.value_zero _⟩
      | 1 => ⟨.one, by decide +kernel, (add_zero (Binary.value .one)).symm⟩
      | n + 2 => by
        rw [List.take_of_length_le (Nat.le_add_left 2 n), hsum]
        exact ⟨.two, by decide +kernel, Binary.value_two _⟩
    have hexact := (hsingle [.one, .one] (by decide +kernel)).2.exact (by decide +kernel) hfit
    exact hexact.2.trans hsum

end DifferentialPrivacy
