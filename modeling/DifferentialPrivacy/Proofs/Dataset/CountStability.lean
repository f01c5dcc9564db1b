import DifferentialPrivacy.Proofs.Dataset.SumStability
import DifferentialPrivacy.Proofs.Dataset.Tallies

set_option autoImplicit false

/-!
# Stability of counts

Counts of an integer type are the exact counts, clipped at the largest value of the type. Clipping
never moves two counts apart, so the distance of all counts together is at most the number of
records in which the data differ, and the map gives that number back.
-/
namespace DifferentialPrivacy

/-- Admitted data within a distance have results within what the map says of it. -/
def Transformation.StableOn {m' : Metric} (admits : List Value → Prop)
    (T : Transformation .symmetric m') (distance : Value → Value → ℚ) : Prop :=
  ∀ d D, T.map d = .ok D → ∀ u v, admits u → admits v →
    T.inputDomain.contains (.list u) = true → T.inputDomain.contains (.list v) = true →
    symmetricDistance u v ≤ d.val → ∃ x y, T.invoke (.list u) = .ok x ∧
      T.invoke (.list v) = .ok y ∧ distance x y ≤ m'.distanceType.exact D

namespace CountStability

variable {t : IntType}

theorem cast_eq_ok_iff {d : Integer .u32} {n : Integer t} :
    NumType.cast (.int .u32) (.int t) d = .ok n ↔ n.val = d.val := by
  rw [← Saturation.ofInt?_eq_some_iff]
  change _ ↔ NumType.convert? (.int .u32) (.int t) d = some n
  unfold NumType.cast
  cases NumType.convert? (.int .u32) (.int t) d <;> simp

/-- One record counts one, so the map returns its distance whenever the type can hold it. -/
theorem scaleBy_one_eq_ok_iff {d : Integer .u32} {D : Integer t} :
    Transformation.scaleBy .symmetric (.absolute (.int t)) (NumType.one (.int t)) d = .ok D ↔
      D.val = d.val := by
  unfold Transformation.scaleBy
  rw [bind_eq_ok_iff]
  constructor
  · rintro ⟨n, hn, h⟩
    rw [← cast_eq_ok_iff.mp hn, Saturation.mul_eq_ok_iff.mp h]
    exact mul_one n.val
  · intro h
    exact ⟨D, cast_eq_ok_iff.mpr h, Saturation.mul_eq_ok_iff.mpr (mul_one D.val).symm⟩

/-- Counts by key are no further apart than their datasets if the counts of each key are no further
    apart than its occurrences. -/
theorem l1Distance_counts_le {t : NumType} {u v : List Value}
    (h : ∀ k, |t.exact (t.ofCount (u.count k)) - t.exact (t.ofCount (v.count k))| ≤
      ((|(u.count k : Int) - v.count k| : Int) : ℚ)) :
    Value.l1Distance (.counts t u) (.counts t v) ≤ ((symmetricDistance u v : Int) : ℚ) := by
  rw [Value.l1Distance_counts]
  calc
    _ ≤ ∑ k ∈ u.toFinset ∪ v.toFinset, ((|(u.count k : Int) - v.count k| : Int) : ℚ) :=
      Finset.sum_le_sum fun k _ => h k
    _ = ((∑ k ∈ u.toFinset ∪ v.toFinset, |(u.count k : Int) - v.count k| : Int) : ℚ) :=
      (Int.cast_sum _ _).symm
    _ ≤ ((symmetricDistance u v : Int) : ℚ) := Int.cast_le.mpr (sum_abs_count_sub_count_le _ u v)

/-- Clipping does not move two counts apart. -/
theorem abs_exact_sub_exact_le (t : IntType) (a b : Nat) :
    |(NumType.int t).exact ((NumType.int t).ofCount a) -
      (NumType.int t).exact ((NumType.int t).ofCount b)| ≤ ((|(a : Int) - b| : Int) : ℚ) := by
  change |((((NumType.int t).ofCount a).val : Int) : ℚ) - (((NumType.int t).ofCount b).val : Int)| ≤ _
  rw [← Int.cast_sub, ← Int.cast_abs, Int.cast_le, NumType.val_ofCount, NumType.val_ofCount]
  exact abs_inf_sub_inf_le_abs _ _ _

section Transformations

variable {caps : Capabilities} {record : Atom}

theorem count_stable {T : Transformation .symmetric (.absolute (.int t))}
    (hT : Transformation.count caps record (.int t) = .ok T) :
    (∀ d D, T.map d = .ok D ↔ D.val = d.val) ∧
    (∀ u, T.inputDomain.contains (.list u) = true →
      ∃ x : Integer t, T.invoke (.list u) = .ok (.int x) ∧ x.val = min (u.length : Int) t.max) ∧
    T.StableOn (fun _ => True) Value.distance := by
  obtain ⟨-, hscale, hinvoke⟩ := Transformation.of_count_eq_ok hT
  have hmap : ∀ d D, T.map d = .ok D ↔ D.val = d.val := by
    intro d D
    rw [SumStability.map_eq_stabilityMap, hscale]
    exact scaleBy_one_eq_ok_iff
  refine ⟨hmap, fun u hu => ⟨_, hinvoke u hu, NumType.val_ofCount t u.length⟩, ?_⟩
  intro d D hD u v _ _ hu hv hd
  refine ⟨_, _, hinvoke u hu, hinvoke v hv, (abs_exact_sub_exact_le t _ _).trans ?_⟩
  change _ ≤ (D.val : ℚ)
  rw [Int.cast_le, (hmap d D).mp hD]
  exact (abs_length_sub_length_le u v).trans hd

theorem countBy_stable {T : Transformation .symmetric (.l1 (.int t))}
    (hT : Transformation.countBy caps record (.int t) = .ok T) :
    (∀ d D, T.map d = .ok D ↔ D.val = d.val) ∧
    (∀ u, T.inputDomain.contains (.list u) = true →
      ∃ x, T.invoke (.list u) = .ok x ∧ x.keys = u.toFinset ∧
        ∀ k, x.amountAt k = (min (u.count k : Int) t.max : Int)) ∧
    T.StableOn (fun _ => True) Value.l1Distance := by
  obtain ⟨-, hscale, hinvoke⟩ := Transformation.of_countBy_eq_ok hT
  have hmap : ∀ d D, T.map d = .ok D ↔ D.val = d.val := by
    intro d D
    rw [SumStability.map_eq_stabilityMap, hscale]
    exact scaleBy_one_eq_ok_iff
  refine ⟨hmap, fun u hu => ⟨_, hinvoke u hu, Value.keys_counts _ _, fun k => ?_⟩, ?_⟩
  · rw [Value.amountAt_counts]
    exact congrArg Int.cast (NumType.val_ofCount t _)
  · intro d D hD u v _ _ hu hv hd
    refine ⟨_, _, hinvoke u hu, hinvoke v hv,
      (l1Distance_counts_le fun k => abs_exact_sub_exact_le t _ _).trans ?_⟩
    change _ ≤ (D.val : ℚ)
    rw [Int.cast_le, (hmap d D).mp hD]
    exact hd

end Transformations

/-- Counts of an integer type, of all records or of each kind of record, are exact or clipped at its
    largest value. The map returns every distance that the type can hold, and no two datasets have
    counts further apart than that. -/
theorem integerCounts_stable (caps : Capabilities) (record : Atom) (t : IntType) :
    (∀ T, Transformation.count caps record (.int t) = .ok T →
      (∀ d D, T.map d = .ok D ↔ D.val = d.val) ∧
      (∀ u, T.inputDomain.contains (.list u) = true →
        ∃ x : Integer t, T.invoke (.list u) = .ok (.int x) ∧ x.val = min (u.length : Int) t.max) ∧
      T.StableOn (fun _ => True) Value.distance) ∧
    ∀ T, Transformation.countBy caps record (.int t) = .ok T →
      (∀ d D, T.map d = .ok D ↔ D.val = d.val) ∧
      (∀ u, T.inputDomain.contains (.list u) = true →
        ∃ x, T.invoke (.list u) = .ok x ∧ x.keys = u.toFinset ∧
          ∀ k, x.amountAt k = (min (u.count k : Int) t.max : Int)) ∧
      T.StableOn (fun _ => True) Value.l1Distance :=
  ⟨fun _ => count_stable, fun _ => countBy_stable⟩

/-- Both datasets clip in the smallest type, and only one of them has the key `false`. -/
theorem integerCounts_stable_i8 :
    (∃ T, Transformation.count .all .bool (.int .i8) = .ok T ∧
      T.map (.clamp _ 3) = .ok (.clamp _ 3) ∧
      ∃ x y, T.invoke (.list (.bool false :: List.replicate 130 (.bool true))) = .ok x ∧
        T.invoke (.list (List.replicate 128 (.bool true))) = .ok y ∧ Value.distance x y ≤ 3) ∧
    ∃ T, Transformation.countBy .all .bool (.int .i8) = .ok T ∧
      T.map (.clamp _ 3) = .ok (.clamp _ 3) ∧
      ∃ x y, T.invoke (.list (.bool false :: List.replicate 130 (.bool true))) = .ok x ∧
        T.invoke (.list (List.replicate 128 (.bool true))) = .ok y ∧ Value.l1Distance x y ≤ 3 := by
  obtain ⟨hcount, hcountBy⟩ := integerCounts_stable .all .bool .i8
  have hT : Transformation.count .all .bool (.int .i8) = .ok _ := rfl
  have hT' : Transformation.countBy .all .bool (.int .i8) = .ok _ := rfl
  exact ⟨⟨_, hT, rfl, (hcount _ hT).2.2 (.clamp _ 3) (.clamp _ 3) rfl _ _ trivial trivial
      (by decide +kernel) (by decide +kernel) (by decide +kernel)⟩,
    _, hT', rfl, (hcountBy _ hT').2.2 (.clamp _ 3) (.clamp _ 3) rfl _ _ trivial trivial
      (by decide +kernel) (by decide +kernel) (by decide +kernel)⟩

end CountStability
end DifferentialPrivacy
