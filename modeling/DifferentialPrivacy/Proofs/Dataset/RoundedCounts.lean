import DifferentialPrivacy.Proofs.Dataset.CountStability

set_option autoImplicit false

/-!
# Rounded counts

A format has all integers up to a power of two, and beyond it only every second one. Counts of up to
one more record are still as close together as their datasets. Two more records than that are counted
two higher, although they differ by one record. The distance that the map returns is rounded as
well: it may fall short of the distance of counts that are all exact, so counts by key need smaller
datasets, or a format that has every distance between datasets.
-/
namespace DifferentialPrivacy

/-- Two datasets have results further apart than the map says of a distance that they are within. -/
def Transformation.Exceeds {m' : Metric} (T : Transformation .symmetric m')
    (distance : Value → Value → ℚ) (d : Integer .u32) (u v : List Value) : Prop :=
  T.inputDomain.contains (.list u) = true ∧ T.inputDomain.contains (.list v) = true ∧
    symmetricDistance u v ≤ d.val ∧ ∃ D x y, T.map d = .ok D ∧ T.invoke (.list u) = .ok x ∧
      T.invoke (.list v) = .ok y ∧ m'.distanceType.exact D < distance x y

namespace RoundedCounts

theorem not_stableOn {m' : Metric} {T : Transformation .symmetric m'}
    {distance : Value → Value → ℚ} {d : Integer .u32} {u v : List Value}
    (h : T.Exceeds distance d u v) {admits : List Value → Prop} (hu : admits u) (hv : admits v) :
    ¬T.StableOn admits distance := by
  obtain ⟨hud, hvd, hd, D, x, y, hD, hx, hy, hlt⟩ := h
  intro hstable
  obtain ⟨x', y', hx', hy', hle⟩ := hstable d D hD u v hu hv hud hvd hd
  rw [hx] at hx'
  rw [hy] at hy'
  obtain rfl := Except.ok.inj hx'
  obtain rfl := Except.ok.inj hy'
  exact absurd hle (not_le.mpr hlt)

variable {caps : Capabilities} {record : Atom} {f : Format}

theorem scaleBy_one (d : Integer .u32) :
    Transformation.scaleBy .symmetric (.absolute (.float f)) (NumType.one (.float f)) d =
      .ok (.ofInt f d.val) :=
  congrArg Except.ok (Binary.mul_one (.ofInt f d.val))

theorem contains_replicate {x : Value} (hx : record.contains x = true) (n : Nat) :
    (Domain.vectorOf record).contains (.list (List.replicate n x)) = true := by
  unfold Domain.contains
  rw [List.all_eq_true]
  intro y hy
  rw [(List.mem_replicate.mp hy).2]
  exact hx

theorem zero_ne_one_of_type (t : NumType) : t.zero ≠ t.one := by
  intro h
  cases t with
  | int t => exact absurd (congrArg Integer.val h) (by decide : (0 : Int) ≠ 1)
  | float f =>
    have hvalue := congrArg Binary.value h
    change (Binary.zero : Binary f).value = (Binary.one : Binary f).value at hvalue
    rw [Binary.value_zero, Binary.value_one] at hvalue
    exact zero_ne_one hvalue

theorem exists_members (record : Atom) :
    ∃ x y, record.contains x = true ∧ record.contains y = true ∧ x ≠ y := by
  cases record with
  | bool => exact ⟨.bool true, .bool false, rfl, rfl, by decide⟩
  | string => exact ⟨.string "", .string "a", rfl, rfl, by decide⟩
  | num t =>
    refine ⟨.num t t.zero, .num t t.one, ?_, ?_, ?_⟩
    · cases t <;> simp [Atom.contains, NumType.isNull, NumType.zero, Binary.zero, Binary.isNan]
    · cases t <;> simp [Atom.contains, NumType.isNull, NumType.one, Binary.one, Binary.isNan]
    · intro h
      simp only [Value.num.injEq, heq_eq_eq, true_and] at h
      exact zero_ne_one_of_type t h

/-- Counts before the first gap are clipped, and clipping does not move them apart. -/
theorem abs_value_sub_value_le {a b : Nat} (ha : a ≤ f.lastConsecutive + 1)
    (hb : b ≤ f.lastConsecutive + 1) : |(Binary.ofInt f a).value - (Binary.ofInt f b).value| ≤
      ((min |(a : Int) - b| f.lastConsecutive : Int) : ℚ) := by
  rw [Binary.value_ofInt ha, Binary.value_ofInt hb, ← Int.cast_natCast (min a _),
    ← Int.cast_natCast (min b _), ← Int.cast_sub, ← Int.cast_abs, Int.cast_le, le_min_iff]
  constructor
  · rw [Nat.cast_min, Nat.cast_min]
    exact abs_inf_sub_inf_le_abs _ _ _
  · rw [abs_le]
    omega

/-- One record more than the first count that is rounded is counted two higher. -/
theorem value_one_lt_gap (f : Format) : (Binary.ofInt f (.one : Integer .u32).val).value <
    |(Binary.ofInt f (f.lastConsecutive + 2 : Nat)).value -
      (Binary.ofInt f (f.lastConsecutive + 1 : Nat)).value| := by
  have hone : (Binary.ofInt f (.one : Integer .u32).val).value = 1 :=
    (Binary.value_ofInt_of_le (n := 1) (twoPow_pos _)).trans Nat.cast_one
  rw [hone, Binary.value_ofInt_second, Binary.value_ofInt (Nat.le_refl _),
    Nat.min_eq_right (Nat.le_succ _), Nat.cast_add, add_sub_cancel_left]
  norm_num

/-- A distance is not rounded below what the format has. -/
theorem le_value_ofInt {d : Integer .u32} {n : Int} (hd : n ≤ d.val) (hn : n ≤ f.lastConsecutive) :
    (n : ℚ) ≤ (Binary.ofInt f d.val).value := by
  obtain ⟨m, hm⟩ := Int.eq_ofNat_of_zero_le (show 0 ≤ d.val from d.min_le)
  rw [hm] at hd ⊢
  have hle : n ≤ (min m f.lastConsecutive : Nat) := by omega
  calc
    (n : ℚ) ≤ ((min m f.lastConsecutive : Nat) : Int) := Int.cast_le.mpr hle
    _ ≤ (Binary.ofInt f m).value := Binary.le_value_ofInt f m

/-! ### Counts of all records -/

section Count

variable {T : Transformation .symmetric (.absolute (.float f))}
  (hT : Transformation.count caps record (.float f) = .ok T)
include hT

theorem map_count (d : Integer .u32) : T.map d = .ok (.ofInt f d.val) := by
  rw [SumStability.map_eq_stabilityMap, (Transformation.of_count_eq_ok hT).2.1]
  exact scaleBy_one d

theorem invoke_count {u : List Value} (hu : T.inputDomain.contains (.list u) = true) :
    T.invoke (.list u) = .ok (.float (.ofInt f u.length)) :=
  (Transformation.of_count_eq_ok hT).2.2 u hu

theorem exceeds_of_count {d : Integer .u32} {u v : List Value}
    (hu : (Domain.vectorOf record).contains (.list u) = true)
    (hv : (Domain.vectorOf record).contains (.list v) = true) (hd : symmetricDistance u v ≤ d.val)
    (h : (Binary.ofInt f d.val).value <
      |(Binary.ofInt f u.length).value - (Binary.ofInt f v.length).value|) :
    T.Exceeds Value.distance d u v := by
  rw [← (Transformation.of_count_eq_ok hT).1] at hu hv
  exact ⟨hu, hv, hd, _, _, _, map_count hT d, invoke_count hT hu, invoke_count hT hv, h⟩

theorem count_exceeds {x : Value} (hx : record.contains x = true) :
    T.Exceeds Value.distance .one (List.replicate (f.lastConsecutive + 2) x)
      (List.replicate (f.lastConsecutive + 1) x) := by
  apply exceeds_of_count hT (contains_replicate hx _) (contains_replicate hx _)
  · rw [List.replicate_succ', symmetricDistance_append_left]
    rfl
  · rw [List.length_replicate, List.length_replicate]
    exact value_one_lt_gap f

/-- Both counts are exact here, but their distance is rounded down. -/
theorem count_exceeds_of_one {x : Value} (hx : record.contains x = true) {d : Integer .u32}
    (hd : d.val = (f.lastConsecutive + 1 : Nat)) :
    T.Exceeds Value.distance d (List.replicate (f.lastConsecutive + 2) x) [x] := by
  have hdistance : symmetricDistance (List.replicate (f.lastConsecutive + 2) x) [x] =
      f.lastConsecutive + 1 :=
    (symmetricDistance_append_left [x] (List.replicate _ x)).trans List.length_replicate
  apply exceeds_of_count hT (v := [x]) (contains_replicate hx _) (contains_replicate hx 1)
  · rw [hdistance, hd]
  · have hpos : 1 ≤ f.lastConsecutive := twoPow_pos _
    rw [List.length_replicate, List.length_singleton, hd, Binary.value_ofInt_second,
      Binary.value_ofInt (Nat.le_refl _), Binary.value_ofInt (Nat.le_add_left 1 _),
      Nat.min_eq_right (Nat.le_succ _), Nat.min_eq_left hpos, lt_abs]
    left
    push_cast
    linarith

theorem count_stableOn : T.StableOn (fun u => u.length ≤ f.lastConsecutive + 1) Value.distance := by
  intro d D hD u v hu hv hud hvd hd
  obtain rfl := Except.ok.inj ((map_count hT d).symm.trans hD)
  refine ⟨_, _, invoke_count hT hud, invoke_count hT hvd, (abs_value_sub_value_le hu hv).trans ?_⟩
  have hlength := abs_length_sub_length_le u v
  exact le_value_ofInt ((min_le_left _ _).trans (hlength.trans hd)) (min_le_right _ _)

theorem count_stableOn_iff {n : Nat} :
    T.StableOn (fun u => u.length ≤ n) Value.distance ↔ n ≤ f.lastConsecutive + 1 := by
  constructor
  · intro h
    obtain ⟨x, _, hx, -, -⟩ := exists_members record
    by_contra hn
    refine not_stableOn (count_exceeds hT hx) ?_ ?_ h
    all_goals
      rw [List.length_replicate]
      omega
  · intro hn d D hD u v hu hv
    exact count_stableOn hT d D hD u v (hu.trans hn) (hv.trans hn)

end Count

/-! ### Counts by key -/

section CountBy

variable {T : Transformation .symmetric (.l1 (.float f))}
  (hT : Transformation.countBy caps record (.float f) = .ok T)
include hT

theorem map_countBy (d : Integer .u32) : T.map d = .ok (.ofInt f d.val) := by
  rw [SumStability.map_eq_stabilityMap, (Transformation.of_countBy_eq_ok hT).2.1]
  exact scaleBy_one d

theorem exceeds_of_countBy {d : Integer .u32} {u v : List Value}
    (hu : (Domain.vectorOf record).contains (.list u) = true)
    (hv : (Domain.vectorOf record).contains (.list v) = true) (hd : symmetricDistance u v ≤ d.val)
    {keys : Finset Value} (hkeys : keys ⊆ u.toFinset ∪ v.toFinset)
    (h : (Binary.ofInt f d.val).value < ∑ k ∈ keys,
      |(Binary.ofInt f (u.count k)).value - (Binary.ofInt f (v.count k)).value|) :
    T.Exceeds Value.l1Distance d u v := by
  obtain ⟨hdomain, -, hinvoke⟩ := Transformation.of_countBy_eq_ok hT
  rw [← hdomain] at hu hv
  refine ⟨hu, hv, hd, _, _, _, map_countBy hT d, hinvoke u hu, hinvoke v hv, h.trans_le ?_⟩
  rw [Value.l1Distance_counts]
  exact Finset.sum_le_sum_of_subset_of_nonneg hkeys fun k _ _ => abs_nonneg _

theorem countBy_exceeds {x : Value} (hx : record.contains x = true) :
    T.Exceeds Value.l1Distance .one (List.replicate (f.lastConsecutive + 2) x)
      (List.replicate (f.lastConsecutive + 1) x) := by
  have hkeys : {x} ⊆ (List.replicate (f.lastConsecutive + 2) x).toFinset ∪
      (List.replicate (f.lastConsecutive + 1) x).toFinset := by
    rw [Finset.singleton_subset_iff, Finset.mem_union, List.mem_toFinset]
    exact Or.inl (List.mem_replicate.mpr ⟨Nat.succ_ne_zero _, rfl⟩)
  apply exceeds_of_countBy hT (contains_replicate hx _) (contains_replicate hx _) _ hkeys
  · rw [Finset.sum_singleton, List.count_replicate_self, List.count_replicate_self]
    exact value_one_lt_gap f
  · rw [List.replicate_succ', symmetricDistance_append_left]
    rfl

/-- All counts are exact here, but the distance that they attain is rounded down. -/
theorem countBy_exceeds_of_two {x y : Value} (hx : record.contains x = true)
    (hy : record.contains y = true) (hxy : x ≠ y) {d : Integer .u32}
    (hd : d.val = (f.lastConsecutive + 1 : Nat)) :
    T.Exceeds Value.l1Distance d (List.replicate (f.lastConsecutive / 2 + 1) x)
      (List.replicate (f.lastConsecutive / 2) y) := by
  have heven : f.lastConsecutive = 2 * (f.lastConsecutive / 2) := by
    unfold Format.lastConsecutive
    rw [twoPow_succ]
    omega
  have hpos : 0 < f.lastConsecutive / 2 := by
    have := twoPow_pos (f.fractionBits + 1)
    unfold Format.lastConsecutive at heven ⊢
    omega
  have hkeys : {x, y} ⊆ (List.replicate (f.lastConsecutive / 2 + 1) x).toFinset ∪
      (List.replicate (f.lastConsecutive / 2) y).toFinset := by
    intro k hk
    rw [Finset.mem_union, List.mem_toFinset, List.mem_toFinset, List.mem_replicate,
      List.mem_replicate]
    rcases Finset.mem_insert.mp hk with rfl | hk
    · exact Or.inl ⟨Nat.succ_ne_zero _, rfl⟩
    · exact Or.inr ⟨hpos.ne', Finset.mem_singleton.mp hk⟩
  apply exceeds_of_countBy hT (contains_replicate hx _) (contains_replicate hy _) _ hkeys
  · have hx0 : (List.replicate (f.lastConsecutive / 2) y).count x = 0 :=
      List.count_eq_zero.mpr fun h => hxy (List.mem_replicate.mp h).2
    have hy0 : (List.replicate (f.lastConsecutive / 2 + 1) x).count y = 0 :=
      List.count_eq_zero.mpr fun h => hxy (List.mem_replicate.mp h).2.symm
    have hhalf : (f.lastConsecutive : ℚ) = 2 * (f.lastConsecutive / 2 : Nat) := by
      exact_mod_cast heven
    rw [Finset.sum_pair hxy, List.count_replicate_self, List.count_replicate_self, hx0, hy0, hd,
      Binary.value_ofInt (Nat.le_refl _), Binary.value_ofInt (Nat.zero_le _),
      Binary.value_ofInt (n := f.lastConsecutive / 2 + 1) (by omega),
      Binary.value_ofInt (n := f.lastConsecutive / 2) (by omega), Nat.zero_min, Nat.cast_zero,
      sub_zero, zero_sub, abs_neg, Nat.abs_cast, Nat.abs_cast, Nat.min_eq_right (Nat.le_succ _),
      Nat.min_eq_left (by omega), Nat.min_eq_left (by omega), hhalf, Nat.cast_succ]
    linarith
  · have hle := symmetricDistance_le (List.replicate (f.lastConsecutive / 2 + 1) x)
      (List.replicate (f.lastConsecutive / 2) y)
    rw [List.length_replicate, List.length_replicate] at hle
    omega

theorem countBy_stableOn {n : Nat} (hn : n ≤ f.lastConsecutive + 1)
    (h : 2 * n ≤ f.lastConsecutive ∨ IntType.u32.max ≤ f.lastConsecutive) :
    T.StableOn (fun u => u.length ≤ n) Value.l1Distance := by
  intro d D hD u v hu hv hud hvd hd
  obtain rfl := Except.ok.inj ((map_countBy hT d).symm.trans hD)
  obtain ⟨-, -, hinvoke⟩ := Transformation.of_countBy_eq_ok hT
  have hcount : ∀ w : List Value, w.length ≤ n → ∀ k, w.count k ≤ f.lastConsecutive + 1 :=
    fun w hw k => List.count_le_length.trans (hw.trans hn)
  have hfits : symmetricDistance u v ≤ f.lastConsecutive := by
    have hlengths := symmetricDistance_le u v
    have hmax := d.le_max
    omega
  refine ⟨_, _, hinvoke u hud, hinvoke v hvd, (CountStability.l1Distance_counts_le fun k => ?_).trans
    (le_value_ofInt hd (Int.ofNat_le.mpr hfits))⟩
  exact (abs_value_sub_value_le (hcount u hu k) (hcount v hv k)).trans
    (Int.cast_le.mpr (min_le_left _ _))

theorem countBy_stableOn_iff {n : Nat} :
    T.StableOn (fun u => u.length ≤ n) Value.l1Distance ↔ n ≤ f.lastConsecutive + 1 ∧
      (2 * n ≤ f.lastConsecutive ∨ IntType.u32.max ≤ f.lastConsecutive) := by
  refine ⟨fun h => ?_, fun ⟨hn, hn'⟩ => countBy_stableOn hT hn hn'⟩
  obtain ⟨x, y, hx, hy, hxy⟩ := exists_members record
  constructor
  · by_contra hn
    refine not_stableOn (countBy_exceeds hT hx) ?_ ?_ h
    all_goals
      rw [List.length_replicate]
      omega
  · by_contra hn
    have hd : IntType.u32.min ≤ (f.lastConsecutive + 1 : Nat) :=
      IntType.u32.min_le_zero.trans (Int.natCast_nonneg _)
    refine not_stableOn (countBy_exceeds_of_two hT hx hy hxy
      (d := ⟨(f.lastConsecutive + 1 : Nat), hd, by omega⟩) rfl) ?_ ?_ h
    all_goals
      rw [List.length_replicate]
      omega

end CountBy

/-- Counts of a format are the nearest numbers to the exact counts, and the map returns the nearest
    number to the distance. The map bounds all counts of datasets of a size, at every distance,
    exactly up to one record more than the integers that the format has without a gap; counts by key
    only as far as no distance of such datasets is rounded down. -/
theorem roundedCounts_stable_iff (caps : Capabilities) (record : Atom) (f : Format) :
    (∀ T, Transformation.count caps record (.float f) = .ok T →
      (∀ d, T.map d = .ok (.ofInt f d.val)) ∧
      (∀ u, T.inputDomain.contains (.list u) = true →
        T.invoke (.list u) = .ok (.float (.ofInt f u.length))) ∧
      ∀ n, T.StableOn (fun u => u.length ≤ n) Value.distance ↔ n ≤ f.lastConsecutive + 1) ∧
    ∀ T, Transformation.countBy caps record (.float f) = .ok T →
      (∀ d, T.map d = .ok (.ofInt f d.val)) ∧
      (∀ u, T.inputDomain.contains (.list u) = true →
        ∃ x, T.invoke (.list u) = .ok x ∧ x.keys = u.toFinset ∧
          ∀ k, x.amountAt k = (Binary.ofInt f (u.count k)).value) ∧
      ∀ n, T.StableOn (fun u => u.length ≤ n) Value.l1Distance ↔ n ≤ f.lastConsecutive + 1 ∧
        (2 * n ≤ f.lastConsecutive ∨ IntType.u32.max ≤ f.lastConsecutive) := by
  constructor
  · intro T hT
    exact ⟨map_count hT, fun u hu => invoke_count hT hu, fun n => count_stableOn_iff hT⟩
  · intro T hT
    exact ⟨map_countBy hT, fun u hu => ⟨_, (Transformation.of_countBy_eq_ok hT).2.2 u hu,
      Value.keys_counts _ _, fun k => Value.amountAt_counts _ k u⟩,
      fun n => countBy_stableOn_iff hT⟩

/-- Where the smaller format has its first gap, one record more counts two; half as many records
    suffice by key. The larger format has every distance between datasets. -/
theorem roundedCounts_stable_iff_string :
    (∃ T, Transformation.count .all .string (.float .binary32) = .ok T ∧
      T.StableOn (fun u => u.length ≤ 16777217) Value.distance ∧
      ¬T.StableOn (fun u => u.length ≤ 16777218) Value.distance) ∧
    (∃ T, Transformation.countBy .all .string (.float .binary32) = .ok T ∧
      T.StableOn (fun u => u.length ≤ 8388608) Value.l1Distance ∧
      ¬T.StableOn (fun u => u.length ≤ 8388609) Value.l1Distance) ∧
    ∃ T, Transformation.countBy .all .string (.float .binary64) = .ok T ∧
      T.StableOn (fun u => u.length ≤ 9007199254740993) Value.l1Distance ∧
      ¬T.StableOn (fun u => u.length ≤ 9007199254740994) Value.l1Distance := by
  obtain ⟨hcount, hcountBy⟩ := roundedCounts_stable_iff .all .string .binary32
  obtain ⟨-, hcountBy'⟩ := roundedCounts_stable_iff .all .string .binary64
  refine ⟨⟨_, rfl, ?_, ?_⟩, ⟨_, rfl, ?_, ?_⟩, _, rfl, ?_, ?_⟩
  · exact ((hcount _ rfl).2.2 _).mpr (by decide)
  · exact fun h => absurd (((hcount _ rfl).2.2 _).mp h) (by decide)
  · exact ((hcountBy _ rfl).2.2 _).mpr (by decide)
  · exact fun h => absurd (((hcountBy _ rfl).2.2 _).mp h) (by decide)
  · exact ((hcountBy' _ rfl).2.2 _).mpr (by decide)
  · exact fun h => absurd (((hcountBy' _ rfl).2.2 _).mp h) (by decide)

/-- Results further apart than the map says: of datasets that differ by one record, and of datasets
    of which all counts are exact. -/
theorem roundedCounts_unstable :
    (∃ T, Transformation.count .all .string (.float .binary32) = .ok T ∧
      T.Exceeds Value.distance .one (List.replicate 16777218 (.string "a"))
        (List.replicate 16777217 (.string "a")) ∧
      T.Exceeds Value.distance (.clamp _ 16777217) (List.replicate 16777218 (.string "a"))
        [.string "a"]) ∧
    ∃ T, Transformation.countBy .all .string (.float .binary32) = .ok T ∧
      T.Exceeds Value.l1Distance .one (List.replicate 16777218 (.string "a"))
        (List.replicate 16777217 (.string "a")) ∧
      T.Exceeds Value.l1Distance (.clamp _ 16777217) (List.replicate 8388609 (.string "a"))
        (List.replicate 8388608 (.string "b")) := by
  have hN : Format.lastConsecutive .binary32 = 16777216 := rfl
  have hrecord : ∀ s, Atom.string.contains (.string s) = true := fun _ => rfl
  have hne : Value.string "a" ≠ .string "b" := fun h => absurd (Value.string.inj h) (by decide)
  have hT : Transformation.count .all .string (.float .binary32) = .ok _ := rfl
  have hT' : Transformation.countBy .all .string (.float .binary32) = .ok _ := rfl
  have h := count_exceeds hT (hrecord "a")
  have hone := count_exceeds_of_one hT (hrecord "a") (d := .clamp _ 16777217) (by decide)
  have h' := countBy_exceeds hT' (hrecord "a")
  have htwo := countBy_exceeds_of_two hT' (hrecord "a") (hrecord "b") hne
    (d := .clamp _ 16777217) (by decide)
  rw [hN] at h hone h' htwo
  exact ⟨⟨_, hT, h, hone⟩, _, hT', h', htwo⟩

end RoundedCounts
end DifferentialPrivacy
