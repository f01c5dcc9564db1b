import DifferentialPrivacy.Accounting.Amplification
import DifferentialPrivacy.Accounting.FixedDelta
import DifferentialPrivacy.Proofs.Pipeline.ChainedMap

set_option autoImplicit false

/-!
# Measurements with another loss

Converting, fixing `δ` and amplifying keep a measurement as it is but for its map, whose losses go
through one function more. They differ in what they ask for before.
-/
namespace DifferentialPrivacy.Measurement

variable {m : Metric} {μ ν : Measure} {f : Format} {caps : Capabilities}

theorem map_mapLoss (M : Measurement m μ) (convert : μ.Loss → Result ν.Loss) (d : m.Distance) :
    (M.mapLoss convert).map d = M.map d >>= convert := by
  unfold map mapLoss
  cases m.distanceType.checkDistance d <;> rfl

theorem pureToFixed_eq_ok_iff {P : Measurement m (.maxDivergence f)}
    {M : Measurement m (.fixedSmoothedMaxDivergence f)} : pureToFixed caps P = .ok M ↔
      caps.require [.contrib] = .ok () ∧ M = P.mapLoss fun ε => .ok (ε, .zero) := gated_eq_ok_iff

theorem pureToConcentrated_eq_ok_iff {P : Measurement m (.maxDivergence f)}
    {M : Measurement m (.zeroConcentratedDivergence f)} : pureToConcentrated caps P = .ok M ↔
      caps.require [.contrib] = .ok () ∧ M = P.mapLoss fun ε => .ok (ε.squareUp.divUp .two) :=
  gated_eq_ok_iff

theorem concentratedToCurve_eq_ok_iff [Elementary] {P : Measurement m (.zeroConcentratedDivergence f)}
    {M : Measurement m (.smoothedMaxDivergence f)} : concentratedToCurve caps P = .ok M ↔
      caps.require [.contrib] = .ok () ∧ M = P.mapLoss fun ρ => .ok (approximateEpsilon ρ) :=
  gated_eq_ok_iff

theorem fixDelta_eq_ok_iff [fix : DeltaFixable μ] {P : Measurement m μ} {δ : Binary μ.format}
    {M : Measurement m (.fixedSmoothedMaxDivergence μ.format)} : fixDelta caps P δ = .ok M ↔
      caps.require [.contrib] = .ok () ∧ (Binary.zero.lt δ = true ∧ δ.lt .one = true) ∧
      M = (P.mapLoss fun loss => fix.fixDelta loss δ :
        Measurement m (.fixedSmoothedMaxDivergence μ.format)) := by
  rw [← Bool.and_eq_true]
  constructor
  · intro h
    obtain ⟨_, hcaps, h⟩ := bind_eq_ok_iff.mp h
    dsimp only at h
    split at h
    · cases h
    · rename_i hδ
      exact ⟨hcaps, by simpa using hδ, (Except.ok.inj h).symm⟩
  · rintro ⟨hcaps, hδ, rfl⟩
    refine bind_eq_ok_iff.mpr ⟨_, hcaps, ?_⟩
    rw [hδ]
    rfl

theorem of_amplify_eq_ok {amp : Amplifiable μ} {P M : Measurement m μ} {population : Nat}
    (h : amplify caps P population = .ok M) :
    ∃ sample, P.inputDomain.size? = some sample ∧ 0 < population ∧ sample ≤ population ∧
      M = P.mapLoss fun loss => .ok (amp.amplify loss population sample) := by
  obtain ⟨_, -, h⟩ := bind_eq_ok_iff.mp h
  split at h
  · cases h
  · rename_i sample hsize
    split at h
    · cases h
    · rename_i hsizes
      cases h
      rw [Bool.or_eq_true, decide_eq_true_iff, decide_eq_true_iff] at hsizes
      exact ⟨sample, hsize, by omega, by omega, rfl⟩

end DifferentialPrivacy.Measurement
