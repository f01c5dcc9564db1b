import DifferentialPrivacy.Dataset.Tally
import DifferentialPrivacy.Proofs.Number.ExactValue
import DifferentialPrivacy.Proofs.Number.Saturation
import DifferentialPrivacy.Proofs.Pipeline.Chain
import Mathlib.Algebra.BigOperators.Group.Finset.Basic

set_option autoImplicit false

/-!
# Tallies of records

Every record moves the tally of its own key by one and no other. So a tally is the number of
occurrences of its key in the data, and keys that do not occur are absent. Distances between counts
are taken of the exact numbers that they stand for, and an absent key counts as zero.
-/
namespace DifferentialPrivacy

/-! ### Tallies by key -/

/-- What is tallied for a key. -/
def tallyOf (key : Value) : List (Value × Nat) → Nat
  | [] => 0
  | (k, n) :: counts => if k = key then n else tallyOf key counts

section Tallies

variable {key record : Value} {counts : List (Value × Nat)}

theorem tallyOf_add : tallyOf key (tallies.add counts record) =
    tallyOf key counts + if record = key then 1 else 0 := by
  induction counts with
  | nil => exact (Nat.zero_add _).symm
  | cons e counts ih =>
    obtain ⟨k, n⟩ := e
    unfold tallies.add
    by_cases hk : k = record
    · rw [if_pos hk]
      unfold tallyOf
      by_cases hkey : k = key
      · rw [if_pos hkey, if_pos hkey, if_pos (hk ▸ hkey)]
      · rw [if_neg hkey, if_neg hkey, if_neg (fun h => hkey (hk.trans h)), Nat.add_zero]
    · rw [if_neg hk]
      unfold tallyOf
      by_cases hkey : k = key
      · rw [if_pos hkey, if_pos hkey, if_neg (fun h => hk (hkey.trans h.symm)), Nat.add_zero]
      · rw [if_neg hkey, if_neg hkey, ih]

theorem tallyOf_tallies (key : Value) (records : List Value) :
    tallyOf key (tallies records) = records.count key := by
  have hfold : ∀ counts, tallyOf key (records.foldl tallies.add counts) =
      tallyOf key counts + records.count key := by
    induction records with
    | nil => exact fun counts => rfl
    | cons record records ih =>
      intro counts
      rw [List.foldl_cons, ih, tallyOf_add, List.count_cons]
      simp only [beq_iff_eq]
      omega
  exact (hfold []).trans (Nat.zero_add _)

theorem mem_keys_add : key ∈ (tallies.add counts record).map Prod.fst ↔
    key ∈ counts.map Prod.fst ∨ key = record := by
  induction counts with
  | nil => simp [tallies.add]
  | cons e counts ih =>
    obtain ⟨k, n⟩ := e
    unfold tallies.add
    by_cases hk : k = record
    · rw [if_pos hk, List.map_cons, List.map_cons, List.mem_cons, hk]
      exact or_iff_left_of_imp Or.inl |>.symm
    · rw [if_neg hk, List.map_cons, List.map_cons, List.mem_cons, List.mem_cons, ih, or_assoc]

theorem mem_keys_tallies (key : Value) (records : List Value) :
    key ∈ (tallies records).map Prod.fst ↔ key ∈ records := by
  have hfold : ∀ counts, key ∈ (records.foldl tallies.add counts).map Prod.fst ↔
      key ∈ counts.map Prod.fst ∨ key ∈ records := by
    induction records with
    | nil => exact fun counts => (or_iff_left List.not_mem_nil).symm
    | cons record records ih =>
      intro counts
      rw [List.foldl_cons, ih, mem_keys_add, List.mem_cons, or_assoc]
  exact (hfold []).trans (or_iff_right List.not_mem_nil)

end Tallies

/-! ### Exact numbers and their distances -/

/-- The number that a finite element of a numeric type stands for. -/
def NumType.exact : (t : NumType) → t.Carrier → ℚ
  | int _, x => x.val
  | float _, x => x.value

namespace Value

def amount : Value → ℚ
  | num t x => t.exact x
  | _ => 0

/-- The number under a key of a map, zero if there is none. -/
def amountAt : Value → Value → ℚ
  | map entries, key => ((lookup? key entries).map amount).getD 0
  | _, _ => 0

def keys : Value → Finset Value
  | map entries => (entries.map Prod.fst).toFinset
  | _ => ∅

def distance (x y : Value) : ℚ := |x.amount - y.amount|

/-- The sum of the differences under all keys that either map has. -/
def l1Distance (x y : Value) : ℚ := ∑ k ∈ x.keys ∪ y.keys, |x.amountAt k - y.amountAt k|

end Value

/-! ### Counts in a numeric type -/

namespace NumType

variable (t : NumType)

theorem exact_ofCount_zero : t.exact (t.ofCount 0) = 0 := by
  cases t with
  | int t => cases t <;> decide
  | float f =>
    change (Binary.ofInt f 0).value = 0
    rw [Binary.ofInt_zero, Binary.value_zero]

theorem isNull_ofCount (n : Nat) : t.isNull (t.ofCount n) = false := by
  cases t with
  | int t => rfl
  | float f =>
    change (Binary.ofInt f n).isNan = false
    rw [Binary.ofInt_natCast]
    rfl

/-- A count that an integer type cannot hold becomes the largest one. -/
theorem val_ofCount (t : IntType) (n : Nat) : ((int t).ofCount n).val = min (n : Int) t.max := by
  have hmin := t.min_le_zero
  change ((Integer.ofInt? t n).getD Integer.max).val = _
  cases h : Integer.ofInt? t n with
  | some x =>
    have hx := Saturation.ofInt?_eq_some_iff.mp h
    have hmax := x.le_max
    change x.val = _
    omega
  | none =>
    rw [Saturation.ofInt?_eq_none_iff] at h
    change t.max = _
    omega

end NumType

namespace Value

/-- The counts of all distinct records. -/
def counts (t : NumType) (records : List Value) : Value :=
  .map ((tallies records).map fun e => (e.1, .num t (t.ofCount e.2)))

theorem keys_counts (t : NumType) (records : List Value) :
    (counts t records).keys = records.toFinset := by
  ext key
  rw [List.mem_toFinset, ← mem_keys_tallies]
  change key ∈ (List.map Prod.fst (List.map _ _)).toFinset ↔ _
  rw [List.mem_toFinset, List.map_map]
  rfl

theorem amountAt_counts (t : NumType) (key : Value) (records : List Value) :
    (counts t records).amountAt key = t.exact (t.ofCount (records.count key)) := by
  rw [← tallyOf_tallies]
  change ((lookup? key _).map amount).getD 0 = _
  induction tallies records with
  | nil => exact t.exact_ofCount_zero.symm
  | cons e entries ih =>
    rw [List.map_cons]
    unfold lookup? tallyOf
    split
    · rfl
    · exact ih

theorem l1Distance_counts (t : NumType) (u v : List Value) :
    l1Distance (counts t u) (counts t v) = ∑ k ∈ u.toFinset ∪ v.toFinset,
      |t.exact (t.ofCount (u.count k)) - t.exact (t.ofCount (v.count k))| := by
  unfold l1Distance
  simp only [keys_counts, amountAt_counts]

end Value

namespace Transformation

variable {caps : Capabilities} {record key : Atom} {t : NumType} {records : List Value}

theorem contains_count (t : NumType) (n : Nat) :
    (Domain.all (.num t)).contains (.num t (t.ofCount n)) = true := by
  simp [Domain.contains, Atom.contains, t.isNull_ofCount]

theorem contains_counts (h : (Domain.vectorOf key).contains (.list records) = true) :
    (Domain.map (.all key) (.all (.num t))).contains (.counts t records) = true := by
  unfold Domain.contains at h
  rw [List.all_eq_true] at h
  unfold Value.counts Domain.contains
  rw [List.all_eq_true]
  rintro ⟨k, v⟩ he
  obtain ⟨e, hmem, heq⟩ := List.mem_map.mp he
  obtain ⟨rfl, rfl⟩ := Prod.mk.inj heq
  have hkey := h e.1 ((mem_keys_tallies e.1 records).mp (List.mem_map_of_mem hmem))
  rw [Bool.and_eq_true]
  exact ⟨hkey, contains_count t e.2⟩

theorem count_eq_ok_iff {T : Transformation .symmetric (.absolute t)} :
    count caps record t = .ok T ↔ caps.require [.contrib] = .ok () ∧ T =
      { inputDomain := .vectorOf record
        outputDomain := .all (.num t)
        function := fun v => .ok (.num t (t.ofCount (v.size?.getD 0)))
        stabilityMap := scaleBy .symmetric (.absolute t) t.one } := gated_eq_ok_iff

theorem countBy_eq_ok_iff {T : Transformation .symmetric (.l1 t)} :
    countBy caps key t = .ok T ↔ caps.require [.contrib] = .ok () ∧ T =
      { inputDomain := .vectorOf key
        outputDomain := .map (.all key) (.all (.num t))
        function := fun v =>
          .ok (.map ((tallies v.elements).map fun e => (e.1, .num t (t.ofCount e.2))))
        stabilityMap := scaleBy .symmetric (.l1 t) t.one } := gated_eq_ok_iff

theorem of_count_eq_ok {T : Transformation .symmetric (.absolute t)}
    (h : count caps record t = .ok T) : T.inputDomain = .vectorOf record ∧
      T.stabilityMap = scaleBy .symmetric (.absolute t) t.one ∧
      ∀ records, T.inputDomain.contains (.list records) = true →
        T.invoke (.list records) = .ok (.num t (t.ofCount records.length)) := by
  obtain ⟨-, rfl⟩ := count_eq_ok_iff.mp h
  exact ⟨rfl, rfl, fun records hr => invokeBetween_eq_ok hr rfl (contains_count t _)⟩

theorem of_countBy_eq_ok {T : Transformation .symmetric (.l1 t)}
    (h : countBy caps key t = .ok T) : T.inputDomain = .vectorOf key ∧
      T.stabilityMap = scaleBy .symmetric (.l1 t) t.one ∧
      ∀ records, T.inputDomain.contains (.list records) = true →
        T.invoke (.list records) = .ok (.counts t records) := by
  obtain ⟨-, rfl⟩ := countBy_eq_ok_iff.mp h
  exact ⟨rfl, rfl, fun records hr => invokeBetween_eq_ok hr rfl (contains_counts hr)⟩

end Transformation
end DifferentialPrivacy
