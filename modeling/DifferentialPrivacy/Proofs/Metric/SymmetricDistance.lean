import Mathlib.Algebra.BigOperators.Group.List.Basic
import Mathlib.Algebra.BigOperators.Ring.Finset
import Mathlib.Algebra.Order.BigOperators.Group.Finset
import Mathlib.Algebra.Order.BigOperators.Group.List
import Mathlib.Algebra.Order.Group.Abs
import Mathlib.Algebra.Order.Group.Int
import Mathlib.Data.Multiset.Basic
import Mathlib.Data.Multiset.UnionInter
import Mathlib.Tactic.Ring

set_option autoImplicit false

/-!
# The symmetric distance of two datasets

Datasets are compared as multisets of records. Two of them consist of a common part and of what
only one of them has, and the sum of any quantity over the records differs by what those rests
contribute. When the datasets have one size, the rests are made of equally many records, which are
then matched into substitutions. Counts, of all records or of each kind, move by at most one for
every record of the rests. A step that works record by record maps each part on its own, so it moves
no two datasets apart.
-/
namespace DifferentialPrivacy

variable {α : Type} [DecidableEq α]

/-- The number of records that one of the datasets has and the other lacks. -/
def symmetricDistance (u v : List α) : Nat :=
  ((u : Multiset α) - v).card + ((v : Multiset α) - u).card

theorem symmetricDistance_nil (u : List α) : symmetricDistance u [] = u.length := by
  unfold symmetricDistance
  rw [Multiset.coe_nil, Multiset.sub_zero, Multiset.zero_sub, Multiset.card_zero,
    Multiset.coe_card]
  omega

theorem symmetricDistance_append_left (u v : List α) :
    symmetricDistance (u ++ v) u = v.length := by
  unfold symmetricDistance
  rw [← Multiset.coe_add, add_tsub_cancel_left, tsub_eq_zero_of_le (Multiset.le_add_right _ _),
    Multiset.card_zero, Multiset.coe_card, Nat.add_zero]

theorem symmetricDistance_le (u v : List α) : symmetricDistance u v ≤ u.length + v.length :=
  Nat.add_le_add (Multiset.card_le_card (Multiset.sub_le_self _ _))
    (Multiset.card_le_card (Multiset.sub_le_self _ _))

theorem exists_common_part (u v : List α) : ∃ c r s : List α,
    u.Perm (c ++ r) ∧ v.Perm (c ++ s) ∧ r.length + s.length = symmetricDistance u v := by
  refine ⟨((u : Multiset α) ∩ v).toList, ((u : Multiset α) - v).toList,
    ((v : Multiset α) - u).toList, ?_, ?_, ?_⟩
  · rw [← Multiset.coe_eq_coe, ← Multiset.coe_add, Multiset.coe_toList, Multiset.coe_toList,
      Multiset.add_comm]
    exact (Multiset.sub_add_inter _ _).symm
  · rw [← Multiset.coe_eq_coe, ← Multiset.coe_add, Multiset.coe_toList, Multiset.coe_toList,
      Multiset.add_comm, Multiset.inter_comm]
    exact (Multiset.sub_add_inter _ _).symm
  · rw [Multiset.length_toList, Multiset.length_toList]
    rfl

theorem symmetricDistance_le_of_common_part {u v c r s : List α} (hu : u.Perm (c ++ r))
    (hv : v.Perm (c ++ s)) : symmetricDistance u v ≤ r.length + s.length := by
  unfold symmetricDistance
  rw [Multiset.coe_eq_coe.mpr hu, Multiset.coe_eq_coe.mpr hv, ← Multiset.coe_add,
    ← Multiset.coe_add, add_tsub_add_eq_tsub_left, add_tsub_add_eq_tsub_left]
  exact Nat.add_le_add (Multiset.card_le_card (Multiset.sub_le_self _ _))
    (Multiset.card_le_card (Multiset.sub_le_self _ _))

/-- Records that become equal cancel, and none that are equal come apart. -/
theorem symmetricDistance_map_le {β : Type} [DecidableEq β] (g : α → β) (u v : List α) :
    symmetricDistance (u.map g) (v.map g) ≤ symmetricDistance u v := by
  obtain ⟨c, r, s, hu, hv, hl⟩ := exists_common_part u v
  have hgu := hu.map g
  have hgv := hv.map g
  rw [List.map_append] at hgu hgv
  calc
    symmetricDistance (u.map g) (v.map g) ≤ (r.map g).length + (s.map g).length :=
      symmetricDistance_le_of_common_part hgu hgv
    _ = symmetricDistance u v := by rw [List.length_map, List.length_map, hl]

omit [DecidableEq α] in
theorem sum_sub_sum_of_common_part {u v c r s : List α} (hu : u.Perm (c ++ r))
    (hv : v.Perm (c ++ s)) (g : α → Int) :
    (u.map g).sum - (v.map g).sum = (r.map g).sum - (s.map g).sum := by
  rw [(hu.map g).sum_eq, (hv.map g).sum_eq, List.map_append, List.map_append, List.sum_append,
    List.sum_append]
  ring

omit [DecidableEq α] in
theorem sum_le_length_mul (xs : List α) (g : α → Int) (b : Int) (h : ∀ x ∈ xs, g x ≤ b) :
    (xs.map g).sum ≤ xs.length * b := by
  induction xs with
  | nil => simp
  | cons x xs ih =>
    have hx := h x List.mem_cons_self
    have hxs := ih (fun y hy => h y (List.mem_cons_of_mem x hy))
    rw [List.map_cons, List.sum_cons, List.length_cons, Nat.cast_succ, add_mul, one_mul]
    omega

omit [DecidableEq α] in
/-- Replacing records one by one moves a sum by at most the width of the replacement each. -/
theorem abs_sum_sub_sum_le (r s : List α) (hl : r.length = s.length) (g : α → Int) (w : Int)
    (h : ∀ x ∈ r, ∀ y ∈ s, |g x - g y| ≤ w) :
    |(r.map g).sum - (s.map g).sum| ≤ r.length * w := by
  induction r generalizing s with
  | nil =>
    cases s with
    | nil => simp
    | cons y s => simp at hl
  | cons x r ih =>
    cases s with
    | nil => simp at hl
    | cons y s =>
      have hxy := h x List.mem_cons_self y List.mem_cons_self
      have hrs := ih s (by simpa using hl) (fun a ha b hb =>
        h a (List.mem_cons_of_mem x ha) b (List.mem_cons_of_mem y hb))
      rw [List.map_cons, List.map_cons, List.sum_cons, List.sum_cons, List.length_cons,
        Nat.cast_succ, add_mul, one_mul]
      calc
        _ = |((r.map g).sum - (s.map g).sum) + (g x - g y)| := by congr 1; ring
        _ ≤ |(r.map g).sum - (s.map g).sum| + |g x - g y| := abs_add_le _ _
        _ ≤ r.length * w + w := add_le_add hrs hxy

theorem abs_length_sub_length_le (u v : List α) :
    |(u.length : Int) - v.length| ≤ symmetricDistance u v := by
  obtain ⟨c, r, s, hu, hv, hl⟩ := exists_common_part u v
  rw [hu.length_eq, hv.length_eq, ← hl, List.length_append, List.length_append, abs_le]
  omega

theorem sum_count_le_length (keys : Finset α) (xs : List α) :
    ∑ k ∈ keys, xs.count k ≤ xs.length := by
  rw [← List.sum_toFinset_count_eq_length]
  apply Finset.sum_le_sum_of_ne_zero
  intro k _ hk
  rw [List.mem_toFinset]
  exact List.count_pos_iff.mp (Nat.pos_of_ne_zero hk)

/-- The counts of any kinds of records together differ by at most the number of records in which the
    datasets differ. -/
theorem sum_abs_count_sub_count_le (keys : Finset α) (u v : List α) :
    ∑ k ∈ keys, |(u.count k : Int) - v.count k| ≤ symmetricDistance u v := by
  obtain ⟨c, r, s, hu, hv, hl⟩ := exists_common_part u v
  calc
    ∑ k ∈ keys, |(u.count k : Int) - v.count k| ≤
        ∑ k ∈ keys, ((r.count k + s.count k : Nat) : Int) := by
      apply Finset.sum_le_sum
      intro k _
      rw [hu.count_eq, hv.count_eq, List.count_append, List.count_append, abs_le]
      omega
    _ = (∑ k ∈ keys, r.count k + ∑ k ∈ keys, s.count k : Nat) := by
      rw [← Finset.sum_add_distrib, Nat.cast_sum]
    _ ≤ symmetricDistance u v := by
      have hr := sum_count_le_length keys r
      have hs := sum_count_le_length keys s
      omega

end DifferentialPrivacy
