import DifferentialPrivacy.Dataset.Sum

set_option autoImplicit false

/-!
# Lists of numbers as data

The datasets that sums, clamps and integer mechanisms take, and when they are members of the domains
that those steps state.
-/
namespace DifferentialPrivacy

variable {t : IntType}

theorem bind_eq_ok_iff {ε α β : Type} {x : Except ε α} {f : α → Except ε β} {b : β} :
    x >>= f = .ok b ↔ ∃ a, x = .ok a ∧ f a = .ok b := by
  constructor
  · intro h
    cases x with
    | error e => cases h
    | ok a => exact ⟨a, rfl, h⟩
  · rintro ⟨a, rfl, h⟩
    exact h

section Invoke

variable {input output : Domain} {function : Value → Result Value} {x y : Value}

theorem invokeBetween_eq_ok_iff : invokeBetween input output function x = .ok y ↔
    input.contains x = true ∧ function x = .ok y ∧ output.contains y = true := by
  unfold invokeBetween
  constructor
  · intro h
    split at h
    · rename_i hx
      obtain ⟨z, hf, h⟩ := bind_eq_ok_iff.mp h
      split at h
      · rename_i hz
        cases h
        exact ⟨hx, hf, hz⟩
      · cases h
    · cases h
  · rintro ⟨hx, hf, hy⟩
    rw [if_pos hx, hf]
    change (if output.contains y then _ else _) = _
    rw [if_pos hy]

theorem invokeBetween_eq_ok (hx : input.contains x = true) (hf : function x = .ok y)
    (hy : output.contains y = true) : invokeBetween input output function x = .ok y :=
  invokeBetween_eq_ok_iff.mpr ⟨hx, hf, hy⟩

theorem of_invokeBetween_eq_ok (h : invokeBetween input output function x = .ok y) :
    function x = .ok y :=
  (invokeBetween_eq_ok_iff.mp h).2.1

end Invoke

theorem Interval.of_ofBounds_eq_ok {t : NumType} {lower upper : t.Carrier} {i : Interval t}
    (h : Interval.ofBounds t lower upper = .ok i) : i.lower = lower ∧ i.upper = upper := by
  unfold Interval.ofBounds at h
  split at h
  · cases h
  · split at h
    · cases h
      exact ⟨rfl, rfl⟩
    · cases h

namespace Value

/-- A list of numbers of one type. -/
def ofNumbers (t : NumType) (xs : List t.Carrier) : Value := .list (xs.map (Value.num t))

def ofIntegers (xs : List (Integer t)) : Value := .list (xs.map Value.int)

theorem size?_ofIntegers (xs : List (Integer t)) : (ofIntegers xs).size? = some xs.length := by
  change some (xs.map Value.int).length = _
  rw [List.length_map]

theorem integers_ofIntegers (xs : List (Integer t)) : (ofIntegers xs).integers t = xs := by
  unfold integers
  change List.filterMap _ (xs.map Value.int) = xs
  rw [List.filterMap_map]
  induction xs with
  | nil => rfl
  | cons x xs ih =>
    rw [List.filterMap_cons, ih]
    simp [Value.int]

end Value

namespace Domain

theorem contains_ofNumbers_iff {t : NumType} {xs : List t.Carrier} :
    (vectorOf (.num t)).contains (.ofNumbers t xs) = true ↔ ∀ x ∈ xs, t.isNull x = false := by
  simp [contains, Value.ofNumbers, Atom.contains]

theorem bounded_contains_ofNumbers_iff {t : NumType} {i : Interval t} {xs : List t.Carrier} :
    (vector (bounded t i)).contains (.ofNumbers t xs) = true ↔ ∀ x ∈ xs, i.contains x = true := by
  simp [contains, Value.ofNumbers, Interval.containsValue]

theorem contains_int (x : Integer t) : (all (.num (.int t))).contains (.int x) = true := by
  simp [contains, Atom.contains, Value.int, NumType.isNull]

theorem contains_ofIntegers (xs : List (Integer t)) :
    (vectorOf (.num (.int t))).contains (.ofIntegers xs) = true := by
  simp [contains, Value.ofIntegers, Atom.contains, Value.int, NumType.isNull]

theorem bounded_contains_ofIntegers_iff (i : Interval (.int t)) (xs : List (Integer t)) :
    (vector (bounded (.int t) i)).contains (.ofIntegers xs) = true ↔
      ∀ x ∈ xs, i.lower.val ≤ x.val ∧ x.val ≤ i.upper.val := by
  simp [contains, Value.ofIntegers, Interval.containsValue, Interval.contains, Value.int,
    NumType.le]

end Domain
end DifferentialPrivacy
