import DifferentialPrivacy.Error
import Mathlib.Algebra.Order.BigOperators.Group.List
import Mathlib.Algebra.Order.Ring.Abs

set_option autoImplicit false

/-!
# Clipping and checking at the ends of an integer type

What the saturating and the checked operations do, said of exact integers: a saturating result is
the exact one moved into the type, and a checked result is the exact one or none at all.
-/
namespace DifferentialPrivacy.Saturation

variable {t : IntType}

/-- A type with negative numbers has the negative of every number but perhaps its least. -/
theorem min_le_neg_max (h : t.min < 0) : t.min ≤ -t.max := by
  revert h
  cases t <;> decide

theorem val_clamp (t : IntType) (n : Int) : (Integer.clamp t n).val = max t.min (min n t.max) := by
  have hmin := t.min_le_zero
  have hmax := t.zero_le_max
  unfold Integer.clamp
  split
  · change t.min = _
    omega
  · split
    · change t.max = _
      omega
    · change n = _
      omega

theorem val_saturatingAdd (x y : Integer t) :
    (x.saturatingAdd y).val = max t.min (min (x.val + y.val) t.max) := val_clamp t _

theorem ofInt?_eq_some_iff {n : Int} {x : Integer t} :
    Integer.ofInt? t n = some x ↔ x.val = n := by
  unfold Integer.ofInt?
  split
  · rw [Option.some.injEq, Integer.ext_iff]
    exact eq_comm
  · rename_i h
    have hmin := x.min_le
    have hmax := x.le_max
    simp only [reduceCtorEq, false_iff]
    omega

theorem ofInt?_eq_none_iff {n : Int} :
    Integer.ofInt? t n = none ↔ n < t.min ∨ t.max < n := by
  unfold Integer.ofInt?
  split
  · simp only [reduceCtorEq, false_iff]
    omega
  · simp only [true_iff]
    omega

/-- The plain product is the exact one. -/
theorem mul_eq_ok_iff {x y z : Integer t} :
    NumType.mul (.int t) x y = .ok z ↔ z.val = x.val * y.val := by
  rw [← ofInt?_eq_some_iff]
  change _ ↔ x.checkedMul? y = some z
  cases h : x.checkedMul? y <;> simp [NumType.mul, h]

theorem mul_eq_panic {x y : Integer t} (h : t.max < x.val * y.val) :
    NumType.mul (.int t) x y = .error (.panic .multiplication) := by
  have hnone : x.checkedMul? y = none := ofInt?_eq_none_iff.mpr (Or.inr h)
  simp only [NumType.mul, hnone]

theorem sum_nonneg (xs : List (Integer t)) (h : ∀ x ∈ xs, 0 ≤ x.val) :
    0 ≤ (xs.map Integer.val).sum := by
  apply List.sum_nonneg
  intro n hn
  obtain ⟨x, hx, rfl⟩ := List.mem_map.mp hn
  exact h x hx

theorem sum_nonpos (xs : List (Integer t)) (h : ∀ x ∈ xs, x.val ≤ 0) :
    (xs.map Integer.val).sum ≤ 0 := by
  have hle : (xs.map Integer.val).sum ≤ (xs.map Integer.val).length • (0 : Int) := by
    apply List.sum_le_card_nsmul
    intro n hn
    obtain ⟨x, hx, rfl⟩ := List.mem_map.mp hn
    exact h x hx
  rwa [nsmul_zero] at hle

/-- Adding numbers that are not negative clips at the upper end only, however often. -/
theorem val_foldl_of_nonneg (a : Integer t) (xs : List (Integer t)) (h : ∀ x ∈ xs, 0 ≤ x.val) :
    (xs.foldl Integer.saturatingAdd a).val = min (a.val + (xs.map Integer.val).sum) t.max := by
  have hmin := a.min_le
  have hmax := a.le_max
  induction xs generalizing a with
  | nil =>
    simp only [List.foldl_nil, List.map_nil, List.sum_nil]
    omega
  | cons x xs ih =>
    have hx := h x List.mem_cons_self
    have hxs := sum_nonneg xs (fun y hy => h y (List.mem_cons_of_mem x hy))
    have hs := val_saturatingAdd a x
    rw [List.foldl_cons, ih _ (fun y hy => h y (List.mem_cons_of_mem x hy)) (Integer.min_le _)
      (Integer.le_max _), hs, List.map_cons, List.sum_cons]
    omega

theorem val_foldl_of_nonpos (a : Integer t) (xs : List (Integer t)) (h : ∀ x ∈ xs, x.val ≤ 0) :
    (xs.foldl Integer.saturatingAdd a).val = max t.min (a.val + (xs.map Integer.val).sum) := by
  have hmin := a.min_le
  have hmax := a.le_max
  induction xs generalizing a with
  | nil =>
    simp only [List.foldl_nil, List.map_nil, List.sum_nil]
    omega
  | cons x xs ih =>
    have hx := h x List.mem_cons_self
    have hxs := sum_nonpos xs (fun y hy => h y (List.mem_cons_of_mem x hy))
    have hs := val_saturatingAdd a x
    rw [List.foldl_cons, ih _ (fun y hy => h y (List.mem_cons_of_mem x hy)) (Integer.min_le _)
      (Integer.le_max _), hs, List.map_cons, List.sum_cons]
    omega

end DifferentialPrivacy.Saturation
