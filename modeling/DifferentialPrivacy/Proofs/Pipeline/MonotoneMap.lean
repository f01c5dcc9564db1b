import DifferentialPrivacy.Proofs.Dataset.ClampStability
import DifferentialPrivacy.Proofs.Dataset.RoundedCounts
import DifferentialPrivacy.Proofs.Dataset.SumStability
import DifferentialPrivacy.Proofs.Number.DirectedOrder
import DifferentialPrivacy.Proofs.Number.NumberLine
import DifferentialPrivacy.Proofs.Pipeline.ChainedMap

set_option autoImplicit false

/-!
# Maps that never decrease

A map with a value at a distance has one at every smaller distance, and no larger one there. Maps with
this property can be put one after the other, and the stability maps of the library's own steps have
it: they return their distance, or take it to another type, or multiply it there by a factor that is
not negative, and a product that fits its type fits for every smaller distance too.
-/
namespace DifferentialPrivacy

/-! ### The property and how it is passed on -/

section NonDecreasing

variable {α β γ : Type} {below : α → α → Prop} {below' : β → β → Prop} {below'' : γ → γ → Prop}

/-- Where a map has a value, it has one for everything below, and that value is below too. -/
def NonDecreasing (below : α → α → Prop) (below' : β → β → Prop) (map : α → Result β) : Prop :=
  ∀ x x', below x x' → ∀ y', map x' = .ok y' → ∃ y, map x = .ok y ∧ below' y y'

theorem nonDecreasing_ok {g : α → β} (h : ∀ x x', below x x' → below' (g x) (g x')) :
    NonDecreasing below below' fun x => .ok (g x) := by
  intro x x' hx y' hy'
  obtain rfl := Except.ok.inj hy'
  exact ⟨g x, rfl, h x x' hx⟩

theorem NonDecreasing.bind {map : α → Result β} {map' : β → Result γ}
    (h : NonDecreasing below below' map) (h' : NonDecreasing below' below'' map') :
    NonDecreasing below below'' fun x => map x >>= map' := by
  intro x x' hx z' hz'
  obtain ⟨y', hy', hz'⟩ := bind_eq_ok_iff.mp hz'
  obtain ⟨y, hy, hyy'⟩ := h x x' hx y' hy'
  obtain ⟨z, hz, hzz'⟩ := h' y y' hyy' z' hz'
  exact ⟨z, bind_eq_ok_iff.mpr ⟨y, hy, hz⟩, hzz'⟩

theorem NonDecreasing.mapM {ι : Type} {maps : List ι} {map : ι → α → Result β}
    (h : ∀ i ∈ maps, NonDecreasing below below' (map i)) :
    NonDecreasing below (List.Forall₂ below') fun x => maps.mapM fun i => map i x := by
  induction maps with
  | nil =>
    intro x x' _ ys' hys'
    obtain rfl := Except.ok.inj hys'
    exact ⟨[], rfl, .nil⟩
  | cons i maps ih =>
    obtain ⟨hi, hmaps⟩ := List.forall_mem_cons.mp h
    intro x x' hx ys' hys'
    simp only [List.mapM_cons] at hys' ⊢
    obtain ⟨y', hy', hys'⟩ := bind_eq_ok_iff.mp hys'
    obtain ⟨zs', hzs', hys'⟩ := bind_eq_ok_iff.mp hys'
    obtain rfl := Except.ok.inj hys'
    obtain ⟨y, hy, hyy'⟩ := hi x x' hx y' hy'
    obtain ⟨zs, hzs, hzz'⟩ := ih hmaps x x' hx zs' hzs'
    exact ⟨y :: zs, bind_eq_ok_iff.mpr ⟨y, hy, bind_eq_ok_iff.mpr ⟨zs, hzs, rfl⟩⟩, .cons hyy' hzz'⟩

end NonDecreasing

/-! ### Distances -/

namespace NumType

/-- `x` is a legal distance, and `y` is no less. -/
def Ascending (t : NumType) (x y : t.Carrier) : Prop :=
  t.checkDistance x = .ok () ∧ t.le x y = true

theorem le_trans {t : NumType} {x y z : t.Carrier} (h : t.le x y = true) (h' : t.le y z = true) :
    t.le x z = true := by
  obtain ⟨m, n, hm, hn, hmn⟩ := exists_place_of_le h
  obtain ⟨n', k, hn', hk, hnk⟩ := exists_place_of_le h'
  obtain rfl := Option.some.inj (hn.symm.trans hn')
  exact (le_iff_of_place hm hk).mpr (hmn.trans hnk)

theorem ascending_int_iff {t : IntType} {x y : Integer t} :
    (int t).Ascending x y ↔ 0 ≤ x.val ∧ x.val ≤ y.val := by
  unfold Ascending
  rw [checkDistance_eq_ok_iff, le_iff_of_place (t := int t) rfl rfl]
  simp [place?]

theorem ascending_float_iff {f : Format} {x y : Binary f} :
    (float f).Ascending x y ↔ Binary.Ascending x y := by
  unfold Ascending
  rw [Binary.ascending_iff, checkDistance_eq_ok_iff]
  refine and_congr_left fun _ => ?_
  constructor
  · rintro ⟨n, hn, h0⟩
    exact (le_iff_of_place (place?_zero (float f)) hn).mpr h0
  · intro h
    obtain ⟨p, hp⟩ := Binary.exists_at_of_zero_le h
    exact ⟨p, hp.ordinal?_eq, Int.natCast_nonneg p⟩

theorem ofInt_ascending {t : IntType} {f : Format} {x y : Integer t} (h : (int t).Ascending x y) :
    Binary.Ascending (Binary.ofInt f x.val) (Binary.ofInt f y.val) := by
  rw [ascending_int_iff] at h
  obtain ⟨m, hm⟩ := Int.eq_ofNat_of_zero_le h.1
  obtain ⟨n, hn⟩ := Int.eq_ofNat_of_zero_le (h.1.trans h.2)
  rw [hm, hn]
  exact .ofInt f (by omega)

end NumType

/-! ### Transformations -/

namespace Transformation

variable {m m' m'' : Metric}

/-- The stability map never decreases, and legal distances go to legal ones. -/
def Monotone (T : Transformation m m') : Prop :=
  NonDecreasing m.distanceType.Ascending m'.distanceType.Ascending T.stabilityMap

/-- The steps that the library makes itself, and chains of them. -/
inductive BuiltIn : {m m' : Metric} → Transformation m m' → Prop
  | identity {caps : Capabilities} {domain : Domain} {m : Metric} {T : Transformation m m}
      (h : identity caps domain m = .ok T) : BuiltIn T
  | clamp {caps : Capabilities} {t : NumType} {lower upper : t.Carrier}
      {T : Transformation .symmetric .symmetric} (h : clamp caps t lower upper = .ok T) : BuiltIn T
  | count {caps : Capabilities} {record : Atom} {output : NumType}
      {T : Transformation .symmetric (.absolute output)} (h : count caps record output = .ok T) :
      BuiltIn T
  | countBy {caps : Capabilities} {key : Atom} {output : NumType}
      {T : Transformation .symmetric (.l1 output)} (h : countBy caps key output = .ok T) : BuiltIn T
  | boundedSum {method : SumMethod} {caps : Capabilities} {t : IntType} {lower upper : Integer t}
      {T : Transformation .symmetric (.absolute (.int t))}
      (h : boundedSum method caps t lower upper = .ok T) : BuiltIn T
  | sizedBoundedSum {method : SumMethod} {caps : Capabilities} {size : Nat} {t : IntType}
      {lower upper : Integer t} {T : Transformation .symmetric (.absolute (.int t))}
      (h : sizedBoundedSum method caps size t lower upper = .ok T) : BuiltIn T
  | chain {caps : Capabilities} {m m' m'' : Metric} {outer : Transformation m' m''}
      {inner : Transformation m m'} {T : Transformation m m''} (ho : BuiltIn outer)
      (hi : BuiltIn inner) (h : chain caps outer inner = .ok T) : BuiltIn T

theorem scaleBy_one_nonDecreasing (output : NumType) :
    NonDecreasing (NumType.int .u32).Ascending output.Ascending
      (scaleBy .symmetric (.absolute output) output.one) := by
  intro d d' hd e' he'
  cases output with
  | int t =>
    rw [NumType.ascending_int_iff] at hd
    have hval' := CountStability.scaleBy_one_eq_ok_iff.mp he'
    have hmax := e'.le_max
    have hmin := t.min_le_zero
    refine ⟨⟨d.val, by omega, by omega⟩, CountStability.scaleBy_one_eq_ok_iff.mpr rfl, ?_⟩
    rw [NumType.ascending_int_iff, hval']
    exact hd
  | float f =>
    rw [RoundedCounts.scaleBy_one] at he' ⊢
    obtain rfl := Except.ok.inj he'
    exact ⟨_, rfl, NumType.ascending_float_iff.mpr (NumType.ofInt_ascending hd)⟩

theorem scaledBy_nonDecreasing {t : IntType} {s : Integer t} (hs : 0 ≤ s.val) :
    NonDecreasing (NumType.int .u32).Ascending (NumType.int t).Ascending s.scaledBy := by
  intro d d' hd e' he'
  rw [NumType.ascending_int_iff] at hd
  obtain ⟨hfits, hval'⟩ := SumStability.scaledBy_eq_ok_iff.mp he'
  have hmax := e'.le_max
  have hmin := t.min_le_zero
  have hnonneg : 0 ≤ d.val * s.val := Int.mul_nonneg hd.1 hs
  have hle : d.val * s.val ≤ d'.val * s.val := Int.mul_le_mul_of_nonneg_right hd.2 hs
  refine ⟨⟨d.val * s.val, by omega, by omega⟩,
    SumStability.scaledBy_eq_ok_iff.mpr ⟨hd.2.trans hfits, rfl⟩, ?_⟩
  rw [NumType.ascending_int_iff, hval']
  exact ⟨hnonneg, hle⟩

theorem substitutions_ascending {d d' : Integer .u32} (h : (NumType.int .u32).Ascending d d') :
    (NumType.int .u32).Ascending (Integer.substitutions d) (Integer.substitutions d') := by
  rw [NumType.ascending_int_iff] at h ⊢
  rw [SumStability.val_substitutions, SumStability.val_substitutions]
  omega

theorem BuiltIn.monotone {T : Transformation m m'} (h : T.BuiltIn) : T.Monotone := by
  induction h with
  | identity h =>
    obtain ⟨-, rfl⟩ := identity_eq_ok_iff.mp h
    exact nonDecreasing_ok fun _ _ hd => hd
  | clamp h =>
    obtain ⟨i, -, -, rfl⟩ := of_clamp_eq_ok h
    exact nonDecreasing_ok fun _ _ hd => hd
  | count h =>
    unfold Monotone
    rw [(of_count_eq_ok h).2.1]
    exact scaleBy_one_nonDecreasing _
  | countBy h =>
    unfold Monotone
    rw [(of_countBy_eq_ok h).2.1]
    exact scaleBy_one_nonDecreasing _
  | boundedSum h =>
    obtain ⟨-, i, s, -, hs, rfl⟩ := SumStability.of_boundedSum_eq_ok h
    apply scaledBy_nonDecreasing
    rw [SumStability.val_largerMagnitude hs]
    exact (abs_nonneg _).trans (le_max_left _ _)
  | sizedBoundedSum h =>
    obtain ⟨-, i, r, hi, hr, rfl⟩ := SumStability.of_sizedBoundedSum_eq_ok h
    have hle := SumStability.le_of_ofBounds_eq_ok hi
    have hrange : 0 ≤ r.val := by
      rw [SumStability.val_range hr]
      omega
    exact fun d d' hd => scaledBy_nonDecreasing hrange _ _ (substitutions_ascending hd)
  | chain ho hi h iho ihi =>
    obtain ⟨-, -, rfl⟩ := chain_eq_ok_iff.mp h
    exact ihi.bind iho

/-- A chain of the library's own steps that has a bound for a distance has one for every smaller
    legal distance, and it is no larger. So what passes a check at a distance passes it at every
    smaller one. -/
theorem builtIn_map_nonDecreasing {T : Transformation m m'} (hT : T.BuiltIn) {d d' : m.Distance}
    (hd : m.Legal d) (hle : m.distanceType.le d d' = true) :
    (∀ e', T.map d' = .ok e' → ∃ e, T.map d = .ok e ∧ m'.distanceType.le e e' = true) ∧
    ∀ e, T.check d' e = .ok true → T.check d e = .ok true := by
  have hmap : ∀ e', T.map d' = .ok e' → ∃ e, T.map d = .ok e ∧ m'.distanceType.le e e' = true := by
    intro e' he'
    obtain ⟨_, -, he'⟩ := bind_eq_ok_iff.mp he'
    obtain ⟨e, he, hee'⟩ := hT.monotone d d' ⟨hd, hle⟩ e' he'
    exact ⟨e, bind_eq_ok_iff.mpr ⟨(), hd, he⟩, hee'.2⟩
  refine ⟨hmap, fun bound hcheck => ?_⟩
  obtain ⟨e', he', hbound⟩ := bind_eq_ok_iff.mp hcheck
  obtain ⟨e, he, hee'⟩ := hmap e' he'
  refine bind_eq_ok_iff.mpr ⟨e, he, ?_⟩
  rw [NumType.le_trans hee' (Except.ok.inj hbound)]
  rfl

/-- Clamped numbers are added up. The map is five times the distance, as long as that is a number of
    the type. -/
theorem builtIn_map_nonDecreasing_i16 :
    ∃ T : Transformation .symmetric (.absolute (.int .i16)), T.BuiltIn ∧
      T.map (.clamp _ 6553) = .ok (.clamp _ 32765) ∧ (∃ fault, T.map (.clamp _ 6554) = .error fault) ∧
      (∃ e, T.map (.clamp _ 2) = .ok e ∧ e.val ≤ 32765) ∧
      T.check (.clamp _ 2) (.clamp _ 32765) = .ok true := by
  have hC : clamp .all (.int .i16) (.clamp _ (-3)) (.clamp _ 5) = .ok _ := rfl
  have hS : boundedSum .split .all .i16 (.clamp _ (-3)) (.clamp _ 5) = .ok _ := rfl
  have hcaps : Capabilities.all.require [.contrib] = .ok () := rfl
  have hbuilt := BuiltIn.chain (.boundedSum hS) (.clamp hC)
    (chain_eq_ok_iff.mpr ⟨hcaps, rfl, rfl⟩)
  have hdistances : (NumType.int .u32).le (.clamp _ 2) (.clamp _ 6553) = true := rfl
  obtain ⟨hmap, hcheck⟩ := builtIn_map_nonDecreasing hbuilt (d := .clamp _ 2) rfl hdistances
  obtain ⟨e, he, hle⟩ := hmap (.clamp _ 32765) rfl
  exact ⟨_, hbuilt, rfl, ⟨_, rfl⟩, ⟨e, he, of_decide_eq_true hle⟩, hcheck _ rfl⟩

end Transformation
end DifferentialPrivacy
