import DifferentialPrivacy.Error

set_option autoImplicit false

/-!
# Numbers by their places on a line

Every number of a numeric type has a place on a line of integers, and numbers compare as their places
do. Not-a-number has no place, and the two zeros of a format share one. A distance is legal if its
place is not below that of zero.
-/
namespace DifferentialPrivacy

namespace NumType

variable {t : NumType} {x y : t.Carrier} {m n : Int}

def place? : (t : NumType) → t.Carrier → Option Int
  | int _, x => some x.val
  | float _, x => x.ordinal?

theorem isNull_eq_false_iff : t.isNull x = false ↔ ∃ n, t.place? x = some n := by
  cases t with
  | int t => exact ⟨fun _ => ⟨_, rfl⟩, fun _ => rfl⟩
  | float f =>
    cases x with
    | nan => exact ⟨fun h => (by cases h), fun ⟨_, h⟩ => (by cases h)⟩
    | signed negative p hp => exact ⟨fun _ => ⟨_, rfl⟩, fun _ => rfl⟩

theorem lt_iff_of_place (hx : t.place? x = some m) (hy : t.place? y = some n) :
    t.lt x y = true ↔ m < n := by
  cases t with
  | int t =>
    obtain rfl := Option.some.inj hx
    obtain rfl := Option.some.inj hy
    exact decide_eq_true_iff
  | float f =>
    change Binary.lt x y = true ↔ _
    unfold Binary.lt
    rw [show x.ordinal? = some m from hx, show y.ordinal? = some n from hy]
    exact decide_eq_true_iff

theorem le_iff_of_place (hx : t.place? x = some m) (hy : t.place? y = some n) :
    t.le x y = true ↔ m ≤ n := by
  cases t with
  | int t =>
    obtain rfl := Option.some.inj hx
    obtain rfl := Option.some.inj hy
    exact decide_eq_true_iff
  | float f =>
    change Binary.le x y = true ↔ _
    unfold Binary.le
    rw [show x.ordinal? = some m from hx, show y.ordinal? = some n from hy]
    exact decide_eq_true_iff

theorem exists_place_of_le (h : t.le x y = true) :
    ∃ m n, t.place? x = some m ∧ t.place? y = some n ∧ m ≤ n := by
  cases t with
  | int t => exact ⟨x.val, y.val, rfl, rfl, of_decide_eq_true h⟩
  | float f =>
    change Binary.le x y = true at h
    unfold Binary.le at h
    split at h
    · rename_i m n hm hn
      exact ⟨m, n, hm, hn, of_decide_eq_true h⟩
    · cases h

theorem place?_zero (t : NumType) : t.place? t.zero = some 0 := by cases t <;> rfl

theorem checkDistance_eq_ok_iff :
    t.checkDistance x = .ok () ↔ ∃ n, t.place? x = some n ∧ 0 ≤ n := by
  unfold checkDistance
  cases hnull : t.isNull x with
  | true =>
    have hnone : ¬∃ n, t.place? x = some n := by
      rw [← isNull_eq_false_iff, hnull]
      decide
    exact ⟨fun h => (by cases h), fun ⟨n, hn, _⟩ => absurd ⟨n, hn⟩ hnone⟩
  | false =>
    obtain ⟨n, hn⟩ := isNull_eq_false_iff.mp hnull
    have hlt := lt_iff_of_place hn t.place?_zero
    rw [Bool.false_or]
    split
    · rename_i hneg
      refine ⟨fun h => (by cases h), fun ⟨n', hn', h0⟩ => ?_⟩
      obtain rfl := Option.some.inj (hn.symm.trans hn')
      exact absurd (hlt.mp hneg) (Int.not_lt.mpr h0)
    · rename_i hneg
      exact ⟨fun _ => ⟨n, hn, Int.not_lt.mp fun h => hneg (hlt.mpr h)⟩, fun _ => rfl⟩

end NumType

namespace Binary

variable {f : Format} {x y z : Binary f}

theorem exists_ordinal_of_lt (h : x.lt y = true) :
    ∃ m n, x.ordinal? = some m ∧ y.ordinal? = some n ∧ m < n := by
  unfold lt at h
  split at h
  · rename_i m n hm hn
    exact ⟨m, n, hm, hn, of_decide_eq_true h⟩
  · cases h

theorem lt_iff_of_ordinal {m n : Int} (hx : x.ordinal? = some m) (hy : y.ordinal? = some n) :
    x.lt y = true ↔ m < n := NumType.lt_iff_of_place (t := .float f) hx hy

theorem eq_iff_of_ordinal {m n : Int} (hx : x.ordinal? = some m) (hy : y.ordinal? = some n) :
    x.eq y = true ↔ m = n := by
  unfold eq
  rw [hx, hy]
  exact decide_eq_true_iff

theorem lt_trans (h : x.lt y = true) (h' : y.lt z = true) : x.lt z = true := by
  obtain ⟨m, n, hm, hn, hmn⟩ := exists_ordinal_of_lt h
  obtain ⟨n', k, hn', hk, hnk⟩ := exists_ordinal_of_lt h'
  obtain rfl := Option.some.inj (hn.symm.trans hn')
  exact (lt_iff_of_ordinal hm hk).mpr (Int.lt_trans hmn hnk)

theorem lt_of_lt_of_le (h : x.lt y = true) (h' : y.le z = true) : x.lt z = true := by
  obtain ⟨m, n, hm, hn, hmn⟩ := exists_ordinal_of_lt h
  obtain ⟨n', k, hn', hk, hnk⟩ := NumType.exists_place_of_le (t := .float f) h'
  obtain rfl := Option.some.inj (hn.symm.trans hn')
  exact (lt_iff_of_ordinal hm hk).mpr (Int.lt_of_lt_of_le hmn hnk)

theorem le_self_of_lt (h : x.lt y = true) : y.le y = true := by
  obtain ⟨m, n, -, hn, -⟩ := exists_ordinal_of_lt h
  exact (NumType.le_iff_of_place (t := .float f) hn hn).mpr (Int.le_refl n)

/-- A number that is no more than another is not above it. -/
theorem lt_eq_false_of_le (h : x.le y = true) : y.lt x = false := by
  obtain ⟨m, n, hm, hn, hmn⟩ := NumType.exists_place_of_le (t := .float f) h
  rw [Bool.eq_false_iff, ne_eq, lt_iff_of_ordinal hn hm]
  omega

end Binary

end DifferentialPrivacy
