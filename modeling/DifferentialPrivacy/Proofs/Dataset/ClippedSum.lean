import DifferentialPrivacy.Dataset.Sum
import DifferentialPrivacy.Proofs.Number.Saturation

set_option autoImplicit false

/-!
# What the saturating sums compute

The two parts of a split sum are the exact sums of the negative and of the other numbers, each
clipped at its own end of the type, and adding the parts clips nothing. A single accumulator gives
the same number as long as all numbers share one sign.
-/
namespace DifferentialPrivacy.ClippedSum

variable {t : IntType}

def negatives (xs : List (Integer t)) : Int :=
  ((xs.filter fun x => x.val < 0).map Integer.val).sum

def nonnegatives (xs : List (Integer t)) : Int :=
  ((xs.filter fun x => 0 ≤ x.val).map Integer.val).sum

/-- The exact sums of the two signs, each clipped at its own end of the type. -/
def clippedTotal (xs : List (Integer t)) : Int :=
  max t.min (negatives xs) + min (nonnegatives xs) t.max

theorem clippedTotal_nil : clippedTotal ([] : List (Integer t)) = 0 := by
  have hmin := t.min_le_zero
  have hmax := t.zero_le_max
  change max t.min 0 + min 0 t.max = 0
  omega

theorem negatives_nonpos (xs : List (Integer t)) : negatives xs ≤ 0 := by
  apply Saturation.sum_nonpos
  intro x hx
  have h := of_decide_eq_true (List.mem_filter.mp hx).2
  omega

theorem nonnegatives_nonneg (xs : List (Integer t)) : 0 ≤ nonnegatives xs := by
  apply Saturation.sum_nonneg
  intro x hx
  exact of_decide_eq_true (List.mem_filter.mp hx).2

theorem sum_filter (keep : Integer t → Bool) (xs : List (Integer t)) :
    ((xs.filter keep).map Integer.val).sum = (xs.map fun x => if keep x then x.val else 0).sum := by
  induction xs with
  | nil => rfl
  | cons x xs ih =>
    rw [List.map_cons, List.sum_cons, ← ih]
    by_cases hx : keep x = true
    · rw [List.filter_cons_of_pos hx, List.map_cons, List.sum_cons, if_pos hx]
    · rw [List.filter_cons_of_neg hx, if_neg hx, Int.zero_add]

theorem negatives_eq_sum_min (xs : List (Integer t)) :
    negatives xs = (xs.map fun x => min x.val 0).sum := by
  unfold negatives
  rw [sum_filter]
  congr 2
  funext x
  simp only [decide_eq_true_eq]
  omega

theorem nonnegatives_eq_sum_max (xs : List (Integer t)) :
    nonnegatives xs = (xs.map fun x => max x.val 0).sum := by
  unfold nonnegatives
  rw [sum_filter]
  congr 2
  funext x
  simp only [decide_eq_true_eq]
  omega

theorem nonnegatives_add_negatives (xs : List (Integer t)) :
    nonnegatives xs + negatives xs = (xs.map Integer.val).sum := by
  rw [nonnegatives_eq_sum_max, negatives_eq_sum_min]
  induction xs with
  | nil => rfl
  | cons x xs ih =>
    rw [List.map_cons, List.map_cons, List.map_cons, List.sum_cons, List.sum_cons, List.sum_cons,
      ← ih]
    omega

theorem nonnegatives_sub_negatives (xs : List (Integer t)) :
    nonnegatives xs - negatives xs = (xs.map fun x => |x.val|).sum := by
  rw [nonnegatives_eq_sum_max, negatives_eq_sum_min]
  induction xs with
  | nil => rfl
  | cons x xs ih =>
    have hx : |x.val| = max x.val 0 - min x.val 0 := by
      rw [max_sub_min_eq_abs', sub_zero]
    rw [List.map_cons, List.map_cons, List.map_cons, List.sum_cons, List.sum_cons, List.sum_cons,
      ← ih, hx]
    omega

theorem negatives_replicate (n : Nat) (x : Integer t) :
    negatives (List.replicate n x) = n * min x.val 0 := by
  rw [negatives_eq_sum_min, List.map_replicate, List.sum_replicate, nsmul_eq_mul]

theorem nonnegatives_replicate (n : Nat) (x : Integer t) :
    nonnegatives (List.replicate n x) = n * max x.val 0 := by
  rw [nonnegatives_eq_sum_max, List.map_replicate, List.sum_replicate, nsmul_eq_mul]

theorem abs_clippedTotal_replicate (n : Nat) (x : Integer t) (h : n * |x.val| ≤ t.max) :
    |clippedTotal (List.replicate n x)| = n * |x.val| := by
  have hmin := t.min_le_zero
  have hmax := t.zero_le_max
  unfold clippedTotal
  rw [negatives_replicate, nonnegatives_replicate]
  rcases lt_or_ge x.val 0 with hx | hx
  · have hend : t.min ≤ -t.max := Saturation.min_le_neg_max (x.min_le.trans_lt hx)
    rw [abs_of_neg hx] at h ⊢
    rw [min_eq_left hx.le, max_eq_right hx.le, mul_zero, min_eq_left hmax, add_zero]
    rw [mul_neg] at h ⊢
    rw [max_eq_right (by omega), abs_of_nonpos]
    exact mul_nonpos_of_nonneg_of_nonpos (Int.natCast_nonneg n) hx.le
  · rw [abs_of_nonneg hx] at h ⊢
    rw [min_eq_right hx, max_eq_left hx, mul_zero, max_eq_right hmin, zero_add, min_eq_left h,
      abs_of_nonneg (mul_nonneg (Int.natCast_nonneg n) hx)]

theorem negatives_of_nonneg (xs : List (Integer t)) (h : ∀ x ∈ xs, 0 ≤ x.val) :
    negatives xs = 0 := by
  have hf : (xs.filter fun x => x.val < 0) = [] := by
    rw [List.filter_eq_nil_iff]
    intro x hx
    simpa using h x hx
  unfold negatives
  rw [hf, List.map_nil, List.sum_nil]

theorem nonnegatives_of_nonneg (xs : List (Integer t)) (h : ∀ x ∈ xs, 0 ≤ x.val) :
    nonnegatives xs = (xs.map Integer.val).sum := by
  unfold nonnegatives
  rw [List.filter_eq_self.mpr (fun x hx => by simpa using h x hx)]

/-- A zero counts among the numbers that are not negative, and adds nothing there. -/
theorem nonnegatives_of_nonpos (xs : List (Integer t)) (h : ∀ x ∈ xs, x.val ≤ 0) :
    nonnegatives xs = 0 := by
  rw [nonnegatives_eq_sum_max]
  apply List.sum_eq_zero
  intro n hn
  obtain ⟨x, hx, rfl⟩ := List.mem_map.mp hn
  exact Int.max_eq_right (h x hx)

theorem negatives_of_nonpos (xs : List (Integer t)) (h : ∀ x ∈ xs, x.val ≤ 0) :
    negatives xs = (xs.map Integer.val).sum := by
  rw [negatives_eq_sum_min]
  congr 1
  apply List.map_congr_left
  intro x hx
  exact Int.min_eq_left (h x hx)

/-- Each part only ever meets the numbers of its own sign. -/
theorem foldl_addToPart (s : Integer t × Integer t) (xs : List (Integer t)) :
    xs.foldl Integer.addToPart s =
      ((xs.filter fun x => x.val < 0).foldl Integer.saturatingAdd s.1,
        (xs.filter fun x => 0 ≤ x.val).foldl Integer.saturatingAdd s.2) := by
  induction xs generalizing s with
  | nil => rfl
  | cons x xs ih =>
    rw [List.foldl_cons, ih]
    by_cases hx : x.val < 0
    · rw [List.filter_cons_of_pos (by simpa using hx), List.filter_cons_of_neg (by simpa using hx),
        List.foldl_cons, Integer.addToPart, if_pos hx]
    · rw [List.filter_cons_of_neg (by simpa using hx), List.filter_cons_of_pos (by simpa using hx),
        List.foldl_cons, Integer.addToPart, if_neg hx]

theorem val_splitParts (xs : List (Integer t)) :
    (Integer.splitParts xs).1.val = max t.min (negatives xs) ∧
      (Integer.splitParts xs).2.val = min (nonnegatives xs) t.max := by
  unfold Integer.splitParts
  rw [foldl_addToPart]
  constructor
  · rw [Saturation.val_foldl_of_nonpos]
    · change max t.min (0 + negatives xs) = _
      rw [Int.zero_add]
    · intro x hx
      have h := of_decide_eq_true (List.mem_filter.mp hx).2
      omega
  · rw [Saturation.val_foldl_of_nonneg]
    · change min (0 + nonnegatives xs) t.max = _
      rw [Int.zero_add]
    · intro x hx
      exact of_decide_eq_true (List.mem_filter.mp hx).2

/-- The parts lie on either side of zero, so their sum needs no clipping. -/
theorem val_splitSum (xs : List (Integer t)) :
    (Integer.splitSum xs).val = clippedTotal xs := by
  have hneg := negatives_nonpos xs
  have hpos := nonnegatives_nonneg xs
  have hmin := t.min_le_zero
  have hmax := t.zero_le_max
  unfold Integer.splitSum clippedTotal
  rw [Saturation.val_saturatingAdd, (val_splitParts xs).1, (val_splitParts xs).2]
  omega

/-- Numbers of one sign leave one of the two parts empty. -/
theorem val_monotonicSum (xs : List (Integer t))
    (h : (∀ x ∈ xs, 0 ≤ x.val) ∨ ∀ x ∈ xs, x.val ≤ 0) :
    (Integer.monotonicSum xs).val = clippedTotal xs := by
  have hmin := t.min_le_zero
  have hmax := t.zero_le_max
  unfold Integer.monotonicSum clippedTotal
  rcases h with h | h
  · rw [Saturation.val_foldl_of_nonneg _ _ h, negatives_of_nonneg xs h,
      nonnegatives_of_nonneg xs h]
    change min (0 + _) t.max = _
    omega
  · rw [Saturation.val_foldl_of_nonpos _ _ h, negatives_of_nonpos xs h,
      nonnegatives_of_nonpos xs h]
    change max t.min (0 + _) = _
    omega

def Between (lower upper : Integer t) (xs : List (Integer t)) : Prop :=
  ∀ x ∈ xs, lower.val ≤ x.val ∧ x.val ≤ upper.val

instance (lower upper : Integer t) (xs : List (Integer t)) : Decidable (Between lower upper xs) :=
  inferInstanceAs (Decidable (∀ x ∈ xs, lower.val ≤ x.val ∧ x.val ≤ upper.val))

theorem Between.of_perm {lower upper : Integer t} {u c r : List (Integer t)}
    (hu : Between lower upper u) (h : u.Perm (c ++ r)) : Between lower upper r :=
  fun x hx => hu x (h.mem_iff.mpr (List.mem_append_right c hx))

theorem Between.take {lower upper : Integer t} {u : List (Integer t)}
    (hu : Between lower upper u) (n : Nat) : Between lower upper (u.take n) :=
  fun x hx => hu x (List.mem_of_mem_take hx)

theorem Between.abs_val_le {lower upper : Integer t} {u : List (Integer t)}
    (hu : Between lower upper u) : ∀ x ∈ u, |x.val| ≤ max |lower.val| |upper.val| := by
  intro x hx
  have h := hu x hx
  have hl := neg_abs_le lower.val
  have hr := le_abs_self upper.val
  rw [abs_le]
  omega

theorem shareSign_iff (lower upper : Integer t) : Integer.shareSign lower upper = true ↔
    (0 ≤ lower.val ∧ 0 ≤ upper.val) ∨ (lower.val ≤ 0 ∧ upper.val ≤ 0) := by
  unfold Integer.shareSign
  simp only [Bool.or_eq_true, Bool.and_eq_true, decide_eq_true_eq]

/-- Between bounds that pass the check of the signs, there is one sign. -/
theorem oneSigned_of_between {lower upper : Integer t} {xs : List (Integer t)}
    (hsign : SumMethod.monotonic.checkSigns lower upper = .ok ()) (hxs : Between lower upper xs) :
    (∀ x ∈ xs, 0 ≤ x.val) ∨ ∀ x ∈ xs, x.val ≤ 0 := by
  have hshare : Integer.shareSign lower upper = true := by
    by_contra h
    simp [SumMethod.checkSigns, h] at hsign
  rcases (shareSign_iff lower upper).mp hshare with h | h
  · exact Or.inl fun x hx => h.1.trans (hxs x hx).1
  · exact Or.inr fun x hx => (hxs x hx).2.trans h.2

/-- Both methods add up to the same number, between bounds that pass the check of the signs. -/
theorem val_sum {method : SumMethod} {lower upper : Integer t}
    (hs : method.checkSigns lower upper = .ok ()) {xs : List (Integer t)}
    (hxs : Between lower upper xs) :
    (method.sum xs).val = clippedTotal xs := by
  cases method with
  | split => exact val_splitSum xs
  | monotonic => exact val_monotonicSum xs (oneSigned_of_between hs hxs)

end DifferentialPrivacy.ClippedSum
