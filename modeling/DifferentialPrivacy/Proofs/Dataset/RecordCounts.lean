import DifferentialPrivacy.Proofs.Dataset.Tallies
import Mathlib.Algebra.BigOperators.Ring.Finset

set_option autoImplicit false

/-!
# Counts by key as a multiset

The tallies of data hold every distinct record once, with the number of its occurrences, and the
numbers add up to the size of the data. Data in another order has the same tallies in another order.
Clipping each count and then their sum comes to clipping the sum alone, so the count of all records
can be had from the counts by key.
-/
namespace DifferentialPrivacy

/-! ### Tallies as entries -/

section Tallies

variable {key record : Value} {n : Nat} {counts : List (Value × Nat)} {u v : List Value}

theorem nodup_keys_add (h : (counts.map Prod.fst).Nodup) :
    ((tallies.add counts record).map Prod.fst).Nodup := by
  induction counts with
  | nil => exact List.nodup_singleton record
  | cons e counts ih =>
    obtain ⟨k, m⟩ := e
    rw [List.map_cons, List.nodup_cons] at h
    unfold tallies.add
    by_cases hk : k = record
    · rw [if_pos hk, List.map_cons, List.nodup_cons]
      exact h
    · rw [if_neg hk, List.map_cons, List.nodup_cons, mem_keys_add]
      exact ⟨not_or.mpr ⟨h.1, hk⟩, ih h.2⟩

theorem nodup_keys_tallies (records : List Value) :
    ((tallies records).map Prod.fst).Nodup := by
  have hfold : ∀ counts : List (Value × Nat), (counts.map Prod.fst).Nodup →
      ((records.foldl tallies.add counts).map Prod.fst).Nodup := by
    induction records with
    | nil => exact fun counts h => h
    | cons record records ih => exact fun counts h => ih _ (nodup_keys_add h)
  exact hfold [] List.nodup_nil

/-- A record adds one to the numbers of all keys together. -/
theorem sum_add (counts : List (Value × Nat)) (record : Value) :
    ((tallies.add counts record).map Prod.snd).sum = (counts.map Prod.snd).sum + 1 := by
  induction counts with
  | nil => rfl
  | cons e counts ih =>
    obtain ⟨k, m⟩ := e
    unfold tallies.add
    by_cases hk : k = record
    · rw [if_pos hk, List.map_cons, List.map_cons, List.sum_cons, List.sum_cons]
      omega
    · rw [if_neg hk, List.map_cons, List.map_cons, List.sum_cons, List.sum_cons, ih]
      omega

theorem sum_tallies (records : List Value) :
    ((tallies records).map Prod.snd).sum = records.length := by
  have hfold : ∀ counts : List (Value × Nat), ((records.foldl tallies.add counts).map Prod.snd).sum =
      (counts.map Prod.snd).sum + records.length := by
    induction records with
    | nil => exact fun counts => rfl
    | cons record records ih =>
      intro counts
      rw [List.foldl_cons, ih, sum_add, List.length_cons]
      omega
  exact (hfold []).trans (Nat.zero_add _)

theorem mem_iff_tallyOf (h : (counts.map Prod.fst).Nodup) :
    (key, n) ∈ counts ↔ key ∈ counts.map Prod.fst ∧ tallyOf key counts = n := by
  induction counts with
  | nil => simp
  | cons e counts ih =>
    obtain ⟨k, m⟩ := e
    rw [List.map_cons, List.nodup_cons] at h
    rw [List.mem_cons, List.map_cons, List.mem_cons, ih h.2, Prod.mk.injEq]
    change _ ↔ _ ∧ (if k = key then m else tallyOf key counts) = n
    by_cases hk : k = key
    · subst hk
      simp only [h.1, true_and, if_true, false_and, or_false]
      exact eq_comm
    · simp only [hk, Ne.symm hk, if_false, false_and, false_or]

theorem mem_tallies_iff : (key, n) ∈ tallies u ↔ key ∈ u ∧ u.count key = n := by
  rw [mem_iff_tallyOf (nodup_keys_tallies u), mem_keys_tallies, tallyOf_tallies]

theorem nodup_tallies (records : List Value) : (tallies records).Nodup :=
  (nodup_keys_tallies records).of_map _

theorem tallies_of_perm (h : u.Perm v) : (tallies u).Perm (tallies v) := by
  rw [List.perm_ext_iff_of_nodup (nodup_tallies u) (nodup_tallies v)]
  rintro ⟨key, n⟩
  rw [mem_tallies_iff, mem_tallies_iff, h.mem_iff, h.count_eq]

end Tallies

/-! ### Counts as entries -/

namespace Value

variable {key value : Value} {t : IntType} {u v : List Value}

/-- The entries of the counts of all distinct records. -/
def countEntries (t : NumType) (records : List Value) : List (Value × Value) :=
  (tallies records).map fun e => (e.1, .num t (t.ofCount e.2))

theorem map_fst_countEntries (t : NumType) (records : List Value) :
    (countEntries t records).map Prod.fst = (tallies records).map Prod.fst := by
  unfold countEntries
  rw [List.map_map]
  rfl

theorem mem_countEntries_iff : (key, value) ∈ countEntries (.int t) u ↔
    key ∈ u ∧ ∃ c : Integer t, value = .int c ∧ c.val = min (u.count key : Int) t.max := by
  unfold countEntries
  rw [List.mem_map]
  constructor
  · rintro ⟨⟨k, n⟩, hmem, heq⟩
    obtain ⟨rfl, rfl⟩ := Prod.mk.inj heq
    obtain ⟨hkey, rfl⟩ := mem_tallies_iff.mp hmem
    exact ⟨hkey, _, rfl, NumType.val_ofCount t _⟩
  · rintro ⟨hkey, c, rfl, hc⟩
    refine ⟨(key, u.count key), mem_tallies_iff.mpr ⟨hkey, rfl⟩, ?_⟩
    have hval : (NumType.int t).ofCount (u.count key) = c :=
      Integer.ext ((NumType.val_ofCount t _).trans hc.symm)
    rw [hval]
    rfl

/-- A record that is there has been counted. -/
theorem one_le_of_mem_countEntries {c : Integer t}
    (h : (key, .int c) ∈ countEntries (.int t) u) : 1 ≤ c.val := by
  obtain ⟨hkey, c', hc', hval⟩ := mem_countEntries_iff.mp h
  have hmax := t.one_le_max
  have hcount := List.count_pos_iff.mpr hkey
  cases hc'
  omega

/-- The sum of all numbers in a map. -/
def total (entries : List (Value × Value)) : ℚ := (entries.map fun e => e.2.amount).sum

theorem total_countEntries (t : IntType) (records : List Value) :
    total (countEntries (.int t) records) =
      (((tallies records).map fun e => min (e.2 : Int) t.max).sum : Int) := by
  unfold total countEntries
  rw [List.map_map, Int.cast_list_sum, List.map_map]
  congr 1
  apply List.map_congr_left
  intro e _
  exact congrArg Int.cast (NumType.val_ofCount t e.2)

/-- Counts that are clipped already are clipped no further by being clipped together. -/
theorem min_sum_min {M : Int} (hM : 0 ≤ M) (counts : List (Value × Nat)) :
    min (counts.map fun e => min (e.2 : Int) M).sum M =
      min (((counts.map Prod.snd).sum : Nat) : Int) M := by
  induction counts with
  | nil => rfl
  | cons e counts ih =>
    have hnonneg : 0 ≤ (counts.map fun e => min (e.2 : Int) M).sum := by
      apply List.sum_nonneg
      intro m hm
      obtain ⟨e, -, rfl⟩ := List.mem_map.mp hm
      omega
    rw [List.map_cons, List.map_cons, List.sum_cons, List.sum_cons, Nat.cast_add]
    omega

theorem min_total_countEntries (t : IntType) (records : List Value) :
    min (total (countEntries (.int t) records)) (t.max : ℚ) =
      ((min (records.length : Int) t.max : Int) : ℚ) := by
  rw [total_countEntries, ← Int.cast_min, min_sum_min t.zero_le_max, sum_tallies]

theorem total_of_not_clipped (h : ∀ k ∈ u, (u.count k : Int) ≤ t.max) :
    total (countEntries (.int t) u) = u.length := by
  have hexact : (tallies u).map (fun e => min (e.2 : Int) t.max) =
      ((tallies u).map Prod.snd).map Nat.cast := by
    rw [List.map_map]
    apply List.map_congr_left
    rintro ⟨key, n⟩ hmem
    obtain ⟨hkey, rfl⟩ := mem_tallies_iff.mp hmem
    exact min_eq_left (h key hkey)
  rw [total_countEntries, hexact, ← Nat.cast_list_sum, sum_tallies, Int.cast_natCast]

theorem countEntries_of_perm (t : NumType) (h : u.Perm v) :
    (countEntries t u).Perm (countEntries t v) := (tallies_of_perm h).map _

end Value

theorem Domain.vectorOf_contains_of_perm {record : Atom} {u v : List Value} (h : u.Perm v)
    (hu : (Domain.vectorOf record).contains (.list u) = true) :
    (Domain.vectorOf record).contains (.list v) = true := by
  unfold contains at hu ⊢
  rw [List.all_eq_true] at hu ⊢
  exact fun x hx => hu x (h.mem_iff.mpr hx)

/-- Counts by key have one entry for each distinct record and no other, its number is that of its
    occurrences, clipped, and so never zero. The count of all records is the sum of these numbers,
    clipped once more, and with nothing clipped they add up to the size of the data. Data in another
    order has the same entries. -/
theorem counts_are_multiset {caps caps' : Capabilities} {record : Atom} {t : IntType}
    {T : Transformation .symmetric (.l1 (.int t))}
    {C : Transformation .symmetric (.absolute (.int t))}
    (hT : Transformation.countBy caps record (.int t) = .ok T)
    (hC : Transformation.count caps' record (.int t) = .ok C) {u : List Value}
    (hu : (Domain.vectorOf record).contains (.list u) = true) :
    ∃ entries, T.invoke (.list u) = .ok (.map entries) ∧ (entries.map Prod.fst).Nodup ∧
      (∀ key value, (key, value) ∈ entries ↔ key ∈ u ∧
        ∃ c : Integer t, value = .int c ∧ c.val = min (u.count key : Int) t.max ∧ 1 ≤ c.val) ∧
      (∀ v, u.Perm v → ∃ entries', T.invoke (.list v) = .ok (.map entries') ∧
        entries.Perm entries') ∧
      (∃ n : Integer t, C.invoke (.list u) = .ok (.int n) ∧
        (n.val : ℚ) = min (Value.total entries) t.max) ∧
      ((∀ key ∈ u, (u.count key : Int) ≤ t.max) → Value.total entries = u.length) := by
  obtain ⟨hinput, -, hinvoke⟩ := Transformation.of_countBy_eq_ok hT
  obtain ⟨hinput', -, hinvoke'⟩ := Transformation.of_count_eq_ok hC
  rw [hinput] at hinvoke
  rw [hinput'] at hinvoke'
  refine ⟨Value.countEntries (.int t) u, hinvoke u hu, ?_, fun key value => ?_, fun v hv => ?_,
    ⟨_, hinvoke' u hu, ?_⟩, Value.total_of_not_clipped⟩
  · rw [Value.map_fst_countEntries]
    exact nodup_keys_tallies u
  · rw [Value.mem_countEntries_iff]
    refine and_congr_right fun hkey => exists_congr fun c => and_congr_right ?_
    rintro rfl
    refine ⟨fun hc => ⟨hc, ?_⟩, And.left⟩
    exact Value.one_le_of_mem_countEntries (Value.mem_countEntries_iff.mpr ⟨hkey, c, rfl, hc⟩)
  · exact ⟨_, hinvoke v (Domain.vectorOf_contains_of_perm hv hu), Value.countEntries_of_perm _ hv⟩
  · rw [Value.min_total_countEntries, NumType.val_ofCount]

/-- One of two keys clips in the smallest type, and the count of all records does. -/
theorem counts_are_multiset_i8 :
    ∃ T C, Transformation.countBy .all .bool (.int .i8) = .ok T ∧
      Transformation.count .all .bool (.int .i8) = .ok C ∧
      ∃ entries, T.invoke (.list (List.replicate 130 (.bool true) ++ [.bool false])) =
          .ok (.map entries) ∧
        (Value.bool true, Value.int (Integer.clamp .i8 127)) ∈ entries ∧
        (Value.bool false, Value.int (Integer.clamp .i8 1)) ∈ entries ∧
        ∃ n : Integer .i8,
          C.invoke (.list (List.replicate 130 (.bool true) ++ [.bool false])) = .ok (.int n) ∧
          (n.val : ℚ) = min (Value.total entries) 127 := by
  have hT : Transformation.countBy .all .bool (.int .i8) = .ok _ := rfl
  have hC : Transformation.count .all .bool (.int .i8) = .ok _ := rfl
  obtain ⟨entries, hentries, -, hmem, -, ⟨n, hn, htotal⟩, -⟩ := counts_are_multiset hT hC
    (u := List.replicate 130 (.bool true) ++ [.bool false])
    (by simp [Domain.contains, Atom.contains])
  have hcount : (List.replicate 130 (Value.bool true) ++ [Value.bool false]).count
      (Value.bool true) = 130 := by
    rw [List.count_append, List.count_replicate_self]
    rfl
  refine ⟨_, _, hT, hC, entries, hentries, ?_, ?_, n, hn, htotal⟩
  · exact (hmem _ _).mpr ⟨by decide, _, rfl, by rw [hcount]; decide, by decide⟩
  · exact (hmem _ _).mpr ⟨by decide, _, rfl, by decide, by decide⟩

end DifferentialPrivacy
