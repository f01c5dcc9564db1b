import DifferentialPrivacy.Proofs.Accounting.ComposedRelease
import DifferentialPrivacy.Proofs.Accounting.MappedLoss
import DifferentialPrivacy.Proofs.Number.NumberLine

set_option autoImplicit false

/-!
# Losses pinned to one `δ`

A measurement with a curve or with a pair can be pinned to any `δ` between zero and one. Pinning it
there once more changes nothing, and neither does a larger `δ` for what came from a curve; a smaller
one is refused. A budget of `(ε, δ)` admits the pinned loss exactly when it admits the loss before,
whether the curve fails, or the pair holds a `δ` that is larger or not a number.
-/
namespace DifferentialPrivacy

namespace Measurement

variable {m : Metric} {μ ν : Measure} {f : Format} {caps : Capabilities} {δ δ' ε : Binary f}
  {d : m.Distance}

theorem check_eq_ok_iff {M : Measurement m μ} {budget : μ.Budget} {b : Bool} :
    M.check d budget = .ok b ↔ ∃ l, M.map d = .ok l ∧ μ.within l budget = .ok b := bind_eq_ok_iff

/-- A conversion that keeps track of a budget keeps track of its check. -/
theorem check_mapLoss_iff {M : Measurement m μ} {convert : μ.Loss → Result ν.Loss}
    {budget : μ.Budget} {budget' : ν.Budget}
    (h : ∀ l, (∃ l', convert l = .ok l' ∧ ν.within l' budget' = .ok true) ↔
      μ.within l budget = .ok true) :
    M.check d budget = .ok true ↔ (M.mapLoss convert).check d budget' = .ok true := by
  rw [check_eq_ok_iff, check_eq_ok_iff, map_mapLoss]
  constructor
  · rintro ⟨l, hl, hwithin⟩
    obtain ⟨l', hl', hwithin'⟩ := (h l).mpr hwithin
    exact ⟨l', bind_eq_ok_iff.mpr ⟨l, hl, hl'⟩, hwithin'⟩
  · rintro ⟨l', hl', hwithin'⟩
    obtain ⟨l, hl, hl'⟩ := bind_eq_ok_iff.mp hl'
    exact ⟨l, hl, (h l).mp ⟨l', hl', hwithin'⟩⟩

theorem fixDelta_eq [fix : DeltaFixable μ] (hcaps : .contrib ∈ caps) (M : Measurement m μ)
    {δ : Binary μ.format} (hδ : Binary.zero.lt δ = true) (hone : δ.lt .one = true) :
    M.fixDelta caps δ = .ok (M.mapLoss fun l => DeltaFixable.fixDelta l δ) :=
  fixDelta_eq_ok_iff.mpr ⟨require_contrib_eq_ok_iff.mpr hcaps, ⟨hδ, hone⟩, rfl⟩

/-! ### Pairs -/

section Pair

variable {pair : Binary f × Binary f}

theorem fixDelta_pair_of_le (h : δ.lt pair.2 = false) :
    DeltaFixable.fixDelta (μ := .fixedSmoothedMaxDivergence f) pair δ = .ok pair :=
  if_neg (by rw [h]; decide)

theorem fixDelta_pair_of_lt (h : δ.lt pair.2 = true) :
    DeltaFixable.fixDelta (μ := .fixedSmoothedMaxDivergence f) pair δ =
      .error (.undefinedMap (.tightened pair.2.toNumber δ.toNumber)) := if_pos h

/-- A pair that can be had at `δ` can be had there again. -/
theorem fixDelta_pair_twice (pair : Binary f × Binary f) (δ : Binary f) :
    (DeltaFixable.fixDelta (μ := .fixedSmoothedMaxDivergence f) pair δ >>= fun l =>
      DeltaFixable.fixDelta (μ := .fixedSmoothedMaxDivergence f) l δ) =
      DeltaFixable.fixDelta (μ := .fixedSmoothedMaxDivergence f) pair δ := by
  cases h : δ.lt pair.2 with
  | true =>
    rw [fixDelta_pair_of_lt h]
    rfl
  | false =>
    rw [fixDelta_pair_of_le h]
    exact fixDelta_pair_of_le h

/-- Only a pair whose `δ` is larger is refused, and no budget at `δ` admits that one. -/
theorem within_fixDelta_pair_iff {ε δ : Binary f} :
    (∃ l, DeltaFixable.fixDelta (μ := .fixedSmoothedMaxDivergence f) pair δ = .ok l ∧
      (Measure.fixedSmoothedMaxDivergence f).within l (ε, δ) = .ok true) ↔
      (Measure.fixedSmoothedMaxDivergence f).within pair (ε, δ) = .ok true := by
  cases h : δ.lt pair.2 with
  | true =>
    rw [fixDelta_pair_of_lt h]
    constructor
    · rintro ⟨l, hl, -⟩
      cases hl
    · intro hwithin
      have hle := (Bool.and_eq_true_iff.mp (Except.ok.inj hwithin)).2
      rw [Binary.lt_eq_false_of_le hle] at h
      cases h
  | false =>
    rw [fixDelta_pair_of_le h]
    exact ⟨fun ⟨l, hl, hwithin⟩ => Except.ok.inj hl ▸ hwithin, fun hwithin => ⟨pair, rfl, hwithin⟩⟩

end Pair

/-! ### Curves -/

section Curve

variable {curve : Curve f} {l : Binary f × Binary f}

theorem fixDelta_curve_eq_ok_iff :
    DeltaFixable.fixDelta (μ := .smoothedMaxDivergence f) curve δ = .ok l ↔
      ∃ ε, curve δ = .ok ε ∧ (ε, δ) = l := by
  refine bind_eq_ok_iff.trans (exists_congr fun ε => and_congr_right fun _ => ?_)
  exact ⟨Except.ok.inj, congrArg _⟩

/-- What came from a curve can be had at every larger `δ` and at no smaller one. -/
theorem fixDelta_curve_again (h : δ'.lt δ = false) :
    (DeltaFixable.fixDelta (μ := .smoothedMaxDivergence f) curve δ >>= fun l =>
      DeltaFixable.fixDelta (μ := .fixedSmoothedMaxDivergence f) l δ') =
      DeltaFixable.fixDelta (μ := .smoothedMaxDivergence f) curve δ := by
  change ((curve δ >>= fun ε => .ok (ε, δ)) >>= _) = (curve δ >>= fun ε => .ok (ε, δ))
  cases curve δ with
  | error e => rfl
  | ok ε => exact fixDelta_pair_of_le h

theorem within_fixDelta_curve_iff {ε : Binary f} (hδ : δ.le δ = true) :
    (∃ l, DeltaFixable.fixDelta (μ := .smoothedMaxDivergence f) curve δ = .ok l ∧
      (Measure.fixedSmoothedMaxDivergence f).within l (ε, δ) = .ok true) ↔
      (Measure.smoothedMaxDivergence f).within curve (ε, δ) = .ok true := by
  have hwithin : ∀ e : Binary f, (Measure.fixedSmoothedMaxDivergence f).within (e, δ) (ε, δ) =
      .ok (e.le ε) := fun e => by
    change Except.ok (e.le ε && δ.le δ) = _
    rw [hδ, Bool.and_true]
  constructor
  · rintro ⟨l, hl, h⟩
    obtain ⟨e, he, rfl⟩ := fixDelta_curve_eq_ok_iff.mp hl
    exact bind_eq_ok_iff.mpr ⟨e, he, (hwithin e).symm.trans h⟩
  · intro h
    obtain ⟨e, he, h⟩ := bind_eq_ok_iff.mp h
    exact ⟨(e, δ), fixDelta_curve_eq_ok_iff.mpr ⟨e, he, rfl⟩, (hwithin e).trans h⟩

end Curve

/-- The pinned measurement `F` can be pinned to `δ` again, and its loss at `d` is `loss` then. -/
def RepinsTo (F : Measurement m (.fixedSmoothedMaxDivergence f)) (caps : Capabilities)
    (δ : Binary f) (d : m.Distance) (loss : Result (Binary f × Binary f)) : Prop :=
  ∃ G, F.fixDelta caps δ = .ok G ∧ G.map d = loss

theorem repinsTo_iff (hcaps : .contrib ∈ caps) {F : Measurement m (.fixedSmoothedMaxDivergence f)}
    (hδ : Binary.zero.lt δ = true) (hone : δ.lt .one = true)
    {loss : Result (Binary f × Binary f)} : F.RepinsTo caps δ d loss ↔
      (F.map d >>= fun l => DeltaFixable.fixDelta (μ := .fixedSmoothedMaxDivergence f) l δ) = loss := by
  unfold RepinsTo
  rw [fixDelta_eq hcaps F hδ hone]
  constructor
  · rintro ⟨G, hG, rfl⟩
    obtain rfl := Except.ok.inj hG
    exact (map_mapLoss (ν := .fixedSmoothedMaxDivergence f) F _ d).symm
  · exact fun h => ⟨_, rfl, (map_mapLoss (ν := .fixedSmoothedMaxDivergence f) F _ d).trans h⟩

end Measurement

open Measurement in
/-- A measurement with a curve or a pair can be pinned to every `δ` between zero and one. Pinned to the
    same `δ` again, it has the same loss or the same error, and it fits the same budgets at `δ` as
    before. From a curve, no larger `δ` changes the loss, and a smaller one is an error wherever there
    is a loss. -/
theorem fixDelta_settles {m : Metric} {f : Format} {caps : Capabilities} {δ : Binary f}
    (hcaps : .contrib ∈ caps) (hδ : Binary.zero.lt δ = true) (hone : δ.lt .one = true)
    (d : m.Distance) :
    (∀ M : Measurement m (.smoothedMaxDivergence f), ∃ F, M.fixDelta caps δ = .ok F ∧
      F.RepinsTo caps δ d (F.map d) ∧
      (∀ δ' : Binary f, δ.le δ' = true → δ'.lt .one = true → F.RepinsTo caps δ' d (F.map d)) ∧
      (∀ δ' : Binary f, Binary.zero.lt δ' = true → δ'.lt δ = true → ∀ l, F.map d = .ok l →
        F.RepinsTo caps δ' d (.error (.undefinedMap (.tightened δ.toNumber δ'.toNumber)))) ∧
      ∀ ε, M.check d (ε, δ) = .ok true ↔ F.check d (ε, δ) = .ok true) ∧
    ∀ M : Measurement m (.fixedSmoothedMaxDivergence f), ∃ F, M.fixDelta caps δ = .ok F ∧
      F.RepinsTo caps δ d (F.map d) ∧
      ∀ ε, M.check d (ε, δ) = .ok true ↔ F.check d (ε, δ) = .ok true := by
  have hself := Binary.le_self_of_lt hδ
  constructor
  · intro M
    refine ⟨_, fixDelta_eq hcaps M hδ hone, ?_, ?_, ?_, ?_⟩
    · rw [repinsTo_iff hcaps hδ hone, map_mapLoss, bind_assoc]
      exact congrArg _ (funext fun _ => fixDelta_curve_again (Binary.lt_eq_false_of_le hself))
    · intro δ' hle hone'
      rw [repinsTo_iff hcaps (Binary.lt_of_lt_of_le hδ hle) hone', map_mapLoss, bind_assoc]
      exact congrArg _ (funext fun _ => fixDelta_curve_again (Binary.lt_eq_false_of_le hle))
    · intro δ' hδ' hlt l hl
      rw [repinsTo_iff hcaps hδ' (Binary.lt_trans hlt hone), hl]
      rw [map_mapLoss] at hl
      obtain ⟨curve, -, hl⟩ := bind_eq_ok_iff.mp hl
      obtain ⟨ε, -, rfl⟩ := fixDelta_curve_eq_ok_iff.mp hl
      exact fixDelta_pair_of_lt hlt
    · exact fun ε => check_mapLoss_iff fun _ => within_fixDelta_curve_iff hself
  · intro M
    refine ⟨_, fixDelta_eq hcaps M hδ hone, ?_, ?_⟩
    · rw [repinsTo_iff hcaps hδ hone, map_mapLoss, bind_assoc]
      exact congrArg _ (funext fun pair => fixDelta_pair_twice pair δ)
    · exact fun ε => check_mapLoss_iff fun _ => within_fixDelta_pair_iff

/-- Costs one at every `δ` from a quarter on, and has no loss below. -/
def quarterCurve : Measurement .discrete (.smoothedMaxDivergence .binary64) where
  inputDomain := .all .bool
  outputDomain := .all .bool
  function _ x := .ok x
  privacyMap _ := .ok fun δ =>
    if δ.lt (.ofBits _ 0x3fd0000000000000) then .error (.undefinedMap (.delta δ.toNumber))
    else .ok .one

/-- Holds a `δ` that is not a number. -/
def nullPair : Measurement .discrete (.fixedSmoothedMaxDivergence .binary64) where
  inputDomain := .all .bool
  outputDomain := .all .bool
  function _ x := .ok x
  privacyMap _ := .ok (.one, .nan)

open Measurement in
/-- A curve at one half, which holds at three quarters and not at one quarter, and a pair that fits no
    budget. -/
theorem fixDelta_settles_half :
    (∃ F, quarterCurve.fixDelta .all (.ofBits _ 0x3fe0000000000000) = .ok F ∧
      F.RepinsTo .all (.ofBits _ 0x3fe8000000000000) (.clamp _ 1)
        (.ok (.one, .ofBits _ 0x3fe0000000000000)) ∧
      F.RepinsTo .all (.ofBits _ 0x3fd0000000000000) (.clamp _ 1)
        (.error (.undefinedMap (.tightened (Binary.ofBits .binary64 0x3fe0000000000000).toNumber
          (Binary.ofBits .binary64 0x3fd0000000000000).toNumber))) ∧
      F.check (.clamp _ 1) (.one, .ofBits _ 0x3fe0000000000000) = .ok true) ∧
    ∃ F, nullPair.fixDelta .all (.ofBits _ 0x3fe0000000000000) = .ok F ∧
      F.RepinsTo .all (.ofBits _ 0x3fe0000000000000) (.clamp _ 1) (.ok (.one, .nan)) ∧
      ∀ ε, F.check (.clamp _ 1) (ε, .ofBits _ 0x3fe0000000000000) ≠ .ok true := by
  obtain ⟨hcurve, hpair⟩ := fixDelta_settles (m := .discrete) (f := .binary64)
    (δ := .ofBits _ 0x3fe0000000000000) (require_contrib_eq_ok_iff.mp (rfl : Capabilities.all.require
      [.contrib] = .ok ())) (by decide +kernel) (by decide +kernel) (.clamp _ 1)
  constructor
  · obtain ⟨F, hF, -, hlarger, hsmaller, hcheck⟩ := hcurve quarterCurve
    have hmap : F.map (.clamp _ 1) = .ok (.one, .ofBits _ 0x3fe0000000000000) := by
      cases hF
      rfl
    refine ⟨F, hF, ?_, ?_, (hcheck .one).mp rfl⟩
    · rw [← hmap]
      exact hlarger _ (by decide +kernel) (by decide +kernel)
    · exact hsmaller _ (by decide +kernel) (by decide +kernel) _ hmap
  · obtain ⟨F, hF, hagain, hcheck⟩ := hpair nullPair
    refine ⟨F, hF, ?_, fun ε h => ?_⟩
    · cases hF
      exact hagain
    · have hwithin := Except.ok.inj ((hcheck ε).mpr h)
      exact Bool.false_ne_true (Bool.and_eq_true_iff.mp hwithin).2

end DifferentialPrivacy
