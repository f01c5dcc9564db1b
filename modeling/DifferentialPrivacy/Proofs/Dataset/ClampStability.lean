import DifferentialPrivacy.Dataset.Clamp
import DifferentialPrivacy.Proofs.Dataset.SumStability
import DifferentialPrivacy.Proofs.Number.NumberLine

set_option autoImplicit false

/-!
# Clamped datasets

Clamping puts the place of every number between those of the bounds, and leaves numbers that are
there as they are, down to the sign of a zero. What becomes of a record depends on the record alone,
and its new place on its old place alone. So clamping moves no two datasets apart, whether records
are compared bit for bit or as numbers, although it makes many records equal.
-/
namespace DifferentialPrivacy

variable {t : NumType}

/-! ### One record -/

namespace Interval

variable {i : Interval t} {x : t.Carrier} {l u n : Int}

section Places

variable (hl : t.place? i.lower = some l) (hu : t.place? i.upper = some u)
  (hx : t.place? x = some n)
include hl hu hx

theorem contains_iff_of_place : i.contains x = true ↔ l ≤ n ∧ n ≤ u := by
  unfold contains
  rw [Bool.and_eq_true_iff, NumType.le_iff_of_place hl hx, NumType.le_iff_of_place hx hu]

theorem place?_nearest : t.place? (i.nearest x) = some (max l (min n u)) := by
  have hle := (NumType.le_iff_of_place hl hu).mp i.le
  have hlower := NumType.lt_iff_of_place hx hl
  have hupper := NumType.lt_iff_of_place hu hx
  unfold nearest
  split
  · rename_i h
    rw [hl, max_eq_left ((min_le_left n u).trans (hlower.mp h).le)]
  · rename_i h
    have hln := not_lt.mp (mt hlower.mpr h)
    split
    · rename_i h'
      rw [hu, min_eq_right (hupper.mp h').le, max_eq_right hle]
    · rename_i h'
      rw [hx, min_eq_left (not_lt.mp (mt hupper.mpr h')), max_eq_right hln]

end Places

theorem exists_places (i : Interval t) :
    ∃ l u, t.place? i.lower = some l ∧ t.place? i.upper = some u ∧ l ≤ u :=
  NumType.exists_place_of_le i.le

theorem contains_nearest (hx : t.isNull x = false) : i.contains (i.nearest x) = true := by
  obtain ⟨l, u, hl, hu, hle⟩ := i.exists_places
  obtain ⟨n, hn⟩ := NumType.isNull_eq_false_iff.mp hx
  rw [contains_iff_of_place hl hu (place?_nearest hl hu hn)]
  exact ⟨le_max_left _ _, max_le hle (min_le_right _ _)⟩

theorem isNull_of_contains (h : i.contains x = true) : t.isNull x = false := by
  obtain ⟨-, n, -, hn, -⟩ := NumType.exists_place_of_le (Bool.and_eq_true_iff.mp h).1
  exact NumType.isNull_eq_false_iff.mpr ⟨n, hn⟩

theorem nearest_of_contains (h : i.contains x = true) : i.nearest x = x := by
  obtain ⟨l, u, hl, hu, -⟩ := i.exists_places
  obtain ⟨n, hn⟩ := NumType.isNull_eq_false_iff.mp (isNull_of_contains h)
  obtain ⟨hln, hnu⟩ := (contains_iff_of_place hl hu hn).mp h
  unfold nearest
  rw [if_neg (mt (NumType.lt_iff_of_place hn hl).mp (not_lt.mpr hln)),
    if_neg (mt (NumType.lt_iff_of_place hu hn).mp (not_lt.mpr hnu))]

theorem nearestValue_num (x : t.Carrier) : i.nearestValue (.num t x) = .num t (i.nearest x) :=
  dif_pos rfl

end Interval

/-- `y` is the number of `[lower, upper]` that `x` is moved to. -/
structure Clamps (lower upper x y : t.Carrier) : Prop where
  of_lt : t.lt x lower = true → y = lower
  of_gt : t.lt upper x = true → y = upper
  of_between : t.le lower x = true → t.le x upper = true → y = x

theorem Interval.clamps_nearest (i : Interval t) {x : t.Carrier} (hx : t.isNull x = false) :
    Clamps i.lower i.upper x (i.nearest x) where
  of_lt h := if_pos h
  of_gt h := by
    obtain ⟨l, u, hl, hu, hle⟩ := i.exists_places
    obtain ⟨n, hn⟩ := NumType.isNull_eq_false_iff.mp hx
    have hun := (NumType.lt_iff_of_place hu hn).mp h
    unfold nearest
    rw [if_neg (mt (NumType.lt_iff_of_place hn hl).mp (by omega)), if_pos h]
  of_between h h' := nearest_of_contains (Bool.and_eq_true_iff.mpr ⟨h, h'⟩)

/-! ### Datasets -/

/-- The symmetric distance of datasets whose records are compared as numbers, the two zeros of a
    format as one. -/
def numericDistance (t : NumType) (u v : List t.Carrier) : Nat :=
  symmetricDistance (u.map t.place?) (v.map t.place?)

theorem numericDistance_nearest_le (i : Interval t) {u v : List t.Carrier}
    (hu : ∀ x ∈ u, t.isNull x = false) (hv : ∀ x ∈ v, t.isNull x = false) :
    numericDistance t (u.map i.nearest) (v.map i.nearest) ≤ numericDistance t u v := by
  obtain ⟨l, h, hl, hh, -⟩ := i.exists_places
  have hplaces : ∀ w : List t.Carrier, (∀ x ∈ w, t.isNull x = false) →
      (w.map i.nearest).map t.place? =
        (w.map t.place?).map (Option.map fun n => max l (min n h)) := by
    intro w hw
    rw [List.map_map, List.map_map]
    apply List.map_congr_left
    intro x hx
    obtain ⟨n, hn⟩ := NumType.isNull_eq_false_iff.mp (hw x hx)
    rw [Function.comp_apply, Function.comp_apply, Interval.place?_nearest hl hh hn, hn]
    rfl
  unfold numericDistance
  rw [hplaces u hu, hplaces v hv]
  exact symmetricDistance_map_le _ _ _

namespace Value

theorem ofNumbers_inj {u v : List t.Carrier} : ofNumbers t u = ofNumbers t v ↔ u = v := by
  have hinj : Function.Injective (Value.num t) := by
    intro x y h
    injection h with _ h
  unfold ofNumbers
  rw [Value.list.injEq]
  exact (List.map_injective_iff.mpr hinj).eq_iff

theorem mapList_nearestValue (i : Interval t) (u : List t.Carrier) :
    (ofNumbers t u).mapList i.nearestValue = ofNumbers t (u.map i.nearest) := by
  change Value.list ((u.map (Value.num t)).map i.nearestValue) =
    .list ((u.map i.nearest).map (Value.num t))
  rw [List.map_map, List.map_map]
  exact congrArg _ (List.map_congr_left fun x _ => Interval.nearestValue_num x)

end Value

section Clamp

variable {caps : Capabilities} {lower upper : t.Carrier}
  {T : Transformation .symmetric .symmetric}

theorem Transformation.of_clamp_eq_ok (h : clamp caps t lower upper = .ok T) :
    ∃ i : Interval t, i.lower = lower ∧ i.upper = upper ∧
      T = { inputDomain := .vectorOf (.num t)
            outputDomain := .vector (.bounded t i)
            function := fun v => .ok (v.mapList i.nearestValue)
            stabilityMap := .ok } := by
  obtain ⟨_, _, h⟩ := bind_eq_ok_iff.mp h
  obtain ⟨i, hi, h⟩ := bind_eq_ok_iff.mp h
  obtain ⟨hlower, hupper⟩ := Interval.of_ofBounds_eq_ok hi
  exact ⟨i, hlower, hupper, (Except.ok.inj h).symm⟩

theorem invoke_clamp_iff {i : Interval t} {u : List t.Carrier} {y : Value} :
    invokeBetween (.vectorOf (.num t)) (.vector (.bounded t i))
        (fun v => .ok (v.mapList i.nearestValue)) (.ofNumbers t u) = .ok y ↔
      (∀ x ∈ u, t.isNull x = false) ∧ y = .ofNumbers t (u.map i.nearest) := by
  rw [invokeBetween_eq_ok_iff, Domain.contains_ofNumbers_iff, Value.mapList_nearestValue,
    Except.ok.injEq]
  apply and_congr_right
  intro hu
  constructor
  · rintro ⟨rfl, -⟩
    rfl
  · rintro rfl
    refine ⟨rfl, Domain.bounded_contains_ofNumbers_iff.mpr (List.forall_mem_map.mpr ?_)⟩
    exact fun x hx => Interval.contains_nearest (hu x hx)

/-- Every dataset of numbers is clamped, record by record, to one of the same length between the
    bounds, and a second time to itself. Clamped datasets are no further apart than the datasets that
    they come from, under either comparison of records, and so within the distance that the map
    gives. -/
theorem clamp_stable (hT : Transformation.clamp caps t lower upper = .ok T) :
    (∀ u, (∀ x ∈ u, t.isNull x = false) → ∃ u',
      T.invoke (.ofNumbers t u) = .ok (.ofNumbers t u') ∧ u'.length = u.length ∧
      List.Forall₂ (Clamps lower upper) u u' ∧
      (∀ y ∈ u', t.le lower y = true ∧ t.le y upper = true) ∧
      T.invoke (.ofNumbers t u') = .ok (.ofNumbers t u')) ∧
    ∀ u v u' v', T.invoke (.ofNumbers t u) = .ok (.ofNumbers t u') →
      T.invoke (.ofNumbers t v) = .ok (.ofNumbers t v') →
      symmetricDistance u' v' ≤ symmetricDistance u v ∧
      numericDistance t u' v' ≤ numericDistance t u v ∧
      ∀ d : Integer .u32, ∃ D : Integer .u32, T.map d = .ok D ∧
        (symmetricDistance u v ≤ d.val → symmetricDistance u' v' ≤ D.val) ∧
        (numericDistance t u v ≤ d.val → numericDistance t u' v' ≤ D.val) := by
  obtain ⟨i, rfl, rfl, rfl⟩ := Transformation.of_clamp_eq_ok hT
  refine ⟨fun u hu => ?_, fun u v u' v' hu hv => ?_⟩
  · have hinside : ∀ y ∈ u.map i.nearest, i.contains y = true :=
      List.forall_mem_map.mpr fun x hx => Interval.contains_nearest (hu x hx)
    refine ⟨u.map i.nearest, invoke_clamp_iff.mpr ⟨hu, rfl⟩, List.length_map _, ?_, ?_, ?_⟩
    · rw [List.forall₂_map_right_iff, List.forall₂_same]
      exact fun x hx => i.clamps_nearest (hu x hx)
    · exact fun y hy => Bool.and_eq_true_iff.mp (hinside y hy)
    · refine invoke_clamp_iff.mpr ⟨fun y hy => Interval.isNull_of_contains (hinside y hy), ?_⟩
      have hfixed : (u.map i.nearest).map i.nearest = (u.map i.nearest).map id :=
        List.map_congr_left fun y hy => Interval.nearest_of_contains (hinside y hy)
      rw [hfixed, List.map_id]
  · obtain ⟨hnu, hu'⟩ := invoke_clamp_iff.mp hu
    obtain ⟨hnv, hv'⟩ := invoke_clamp_iff.mp hv
    obtain rfl := Value.ofNumbers_inj.mp hu'
    obtain rfl := Value.ofNumbers_inj.mp hv'
    have hrecords := symmetricDistance_map_le i.nearest u v
    have hnumbers := numericDistance_nearest_le i hnu hnv
    refine ⟨hrecords, hnumbers, fun d => ⟨d, SumStability.map_eq_stabilityMap _ d, ?_, ?_⟩⟩
    · exact (Int.ofNat_le.mpr hrecords).trans
    · exact (Int.ofNat_le.mpr hnumbers).trans

def extremes : List (Binary .binary64) := [-.zero, -.infinity, .infinity, .two]

def clampedExtremes : List (Binary .binary64) := [-.zero, .zero, .one, .one]

/-- Minus zero is no less than the lower bound, so it stays, and is the same number as the clamped
    minus infinity beside it. Infinity is no longer apart from the numbers above one. -/
theorem clamp_stable_zeros : ∃ T : Transformation .symmetric .symmetric,
    Transformation.clamp .all (.float .binary64) Binary.zero Binary.one = .ok T ∧
    (∃ u', T.invoke (.ofNumbers (.float .binary64) extremes) = .ok (.ofNumbers _ u') ∧
      List.Forall₂ (Clamps (t := .float .binary64) Binary.zero Binary.one) extremes u') ∧
    T.invoke (.ofNumbers (.float .binary64) extremes) =
      .ok (.ofNumbers (.float .binary64) clampedExtremes) ∧
    T.invoke (.ofNumbers (.float .binary64) [Binary.two, Binary.two]) =
      .ok (.ofNumbers (.float .binary64) [Binary.one, Binary.one]) ∧
    numericDistance (.float .binary64) clampedExtremes [Binary.one, Binary.one] ≤
      numericDistance (.float .binary64) extremes [Binary.two, Binary.two] := by
  have hT : Transformation.clamp .all (.float .binary64) Binary.zero Binary.one = .ok _ := rfl
  obtain ⟨hrun, hpairs⟩ := clamp_stable hT
  obtain ⟨u', hu', -, hclamps, -⟩ := hrun extremes (by decide +kernel)
  have hu := (invoke_clamp_iff (t := .float .binary64) (i := ⟨Binary.zero, Binary.one, rfl⟩)
    (u := extremes) (y := .ofNumbers (.float .binary64) clampedExtremes)).mpr
      ⟨by decide +kernel, by decide +kernel⟩
  have hv := (invoke_clamp_iff (t := .float .binary64) (i := ⟨Binary.zero, Binary.one, rfl⟩)
    (u := [Binary.two, Binary.two])
    (y := .ofNumbers (.float .binary64) [Binary.one, Binary.one])).mpr
      ⟨by decide +kernel, by decide +kernel⟩
  exact ⟨_, hT, ⟨u', hu', hclamps⟩, hu, hv, (hpairs _ _ _ _ hu hv).2.1⟩

end Clamp
end DifferentialPrivacy
