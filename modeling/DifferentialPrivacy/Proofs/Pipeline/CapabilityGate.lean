import DifferentialPrivacy.Dataset.Clamp
import DifferentialPrivacy.Dataset.Sum
import DifferentialPrivacy.Dataset.Tally
import DifferentialPrivacy.Number.Machine
import DifferentialPrivacy.Proofs.Dataset.Records
import DifferentialPrivacy.Release.Noise
import DifferentialPrivacy.Release.RandomizedResponse
import DifferentialPrivacy.Release.ThresholdedCounts
import DifferentialPrivacy.Step

set_option autoImplicit false

/-!
# The gate before every step

Whatever builds a step asks for its capabilities first. If one is missing, that is the error, and no
other argument has a say in it; if none is, the capabilities have no say in the rest. So a program
that builds one step after the other runs as if everything were enabled, or stops for want of a
capability.
-/
namespace DifferentialPrivacy

namespace Capabilities

variable {caps : Capabilities} {required : List Capability} {c : Capability}

/-- The capability is not in the set, and every one that is required before it is. -/
def FirstMissing (caps : Capabilities) (required : List Capability) (c : Capability) : Prop :=
  ∃ before after, required = before ++ c :: after ∧ (∀ b ∈ before, b ∈ caps) ∧ c ∉ caps

theorem contains_eq_false_iff : caps.contains c = false ↔ c ∉ caps :=
  Bool.eq_false_iff

theorem missing?_eq_some_iff : caps.missing? required = some c ↔ caps.FirstMissing required c := by
  unfold missing? FirstMissing
  rw [List.find?_eq_some_iff_append]
  constructor
  · rintro ⟨hc, before, after, rfl, hbefore⟩
    refine ⟨before, after, rfl, ?_, contains_eq_false_iff.mp (Bool.not_eq_true' _ ▸ hc)⟩
    intro b hb
    have hb := hbefore b hb
    rw [Bool.not_not] at hb
    exact hb
  · rintro ⟨before, after, rfl, hbefore, hc⟩
    refine ⟨?_, before, after, rfl, ?_⟩
    · rw [contains_eq_false_iff.mpr hc]
      rfl
    · intro b hb
      rw [Bool.not_not]
      exact hbefore b hb

theorem missing?_eq_none_iff : caps.missing? required = none ↔ ∀ c ∈ required, c ∈ caps := by
  unfold missing?
  rw [List.find?_eq_none]
  refine forall₂_congr fun c _ => ?_
  rw [Bool.not_eq_true', Bool.not_eq_false]
  rfl

theorem require_eq_ok (h : ∀ c ∈ required, c ∈ caps) : caps.require required = .ok () := by
  unfold require
  rw [missing?_eq_none_iff.mpr h]

theorem require_eq_error (h : caps.FirstMissing required c) :
    caps.require required = .error (.capabilityDisabled c) := by
  unfold require
  rw [missing?_eq_some_iff.mpr h]

theorem enabled_or_firstMissing (caps : Capabilities) (required : List Capability) :
    (∀ c ∈ required, c ∈ caps) ∨ ∃ c, caps.FirstMissing required c := by
  cases h : caps.missing? required with
  | none => exact Or.inl (missing?_eq_none_iff.mp h)
  | some c => exact Or.inr ⟨c, missing?_eq_some_iff.mp h⟩

theorem mem_all (c : Capability) : c ∈ all := by
  cases c <;> rfl

end Capabilities

/-! ### What follows the gate -/

/-- The gate comes first, and what follows does not look at the capabilities again. -/
def Gated {α : Type} (required : List Capability) (build : Capabilities → Result α) : Prop :=
  ∃ rest : Result α, ∀ caps, build caps = caps.require required >>= fun _ => rest

namespace Gated

variable {α β : Type} {required : List Capability} {build : Capabilities → Result α}
  {caps : Capabilities}

theorem map (h : Gated required build) (f : α → β) :
    Gated required fun caps => (build caps).map f := by
  obtain ⟨rest, h⟩ := h
  refine ⟨rest.map f, fun caps => ?_⟩
  change (build caps).map f = _
  rw [h caps]
  cases caps.require required <;> rfl

theorem eq_error (h : Gated required build) {c : Capability}
    (hc : caps.FirstMissing required c) : build caps = .error (.capabilityDisabled c) := by
  obtain ⟨rest, h⟩ := h
  rw [h caps, Capabilities.require_eq_error hc]
  rfl

theorem eq_all (h : Gated required build) (hc : ∀ c ∈ required, c ∈ caps) :
    build caps = build .all := by
  obtain ⟨rest, h⟩ := h
  rw [h caps, h .all, Capabilities.require_eq_ok hc,
    Capabilities.require_eq_ok fun c _ => Capabilities.mem_all c]

end Gated

/-! ### Everything that builds a step -/

/-- A way to build a step, with all of its arguments but the capabilities. -/
inductive Construction
  | identity (domain : Domain) (m : Metric)
  | clamp (t : NumType) (lower upper : t.Carrier)
  | count (record : Atom) (output : NumType)
  | countBy (key : Atom) (output : NumType)
  | boundedSum (method : SumMethod) (t : IntType) (lower upper : Integer t)
  | sizedBoundedSum (method : SumMethod) (size : Nat) (t : IntType) (lower upper : Integer t)
  | suppliedTransformation {m m' : Metric} (inputDomain outputDomain : Domain)
      (function : Value → Result Value) (stabilityMap : m.Distance → Result m'.Distance)
  | chainTransformation {m m' m'' : Metric} (outer : Transformation m' m'')
      (inner : Transformation m m')
  | laplace (arity : Arity) (f : Format) (scale : Binary f)
  | gaussian (arity : Arity) (f : Format) (scale : Binary f)
  /-- The geometric mechanism is another name of this one. -/
  | discreteLaplace (arity : Arity) (t : IntType) (f : Format) (scale : Binary f)
  | discreteGaussian (arity : Arity) (t : IntType) (f : Format) (scale : Binary f)
  | randomizedResponseBool (f : Format) (p : Binary f)
  | randomizedResponse (a : Atom) (categories : Categories) (f : Format) (p : Binary f)
  | thresholdedCounts (key : Atom) (f : Format) (scale threshold : Binary f)
  | suppliedMeasurement {m : Metric} {μ : Measure} (inputDomain outputDomain : Domain)
      (function : Entropy → Value → Result Value) (privacyMap : m.Distance → Result μ.Loss)
  | chainMeasurement {m m' : Metric} {μ : Measure} (outer : Measurement m' μ)
      (inner : Transformation m m')
  | transformRelease {m m₁ m₂ : Metric} {μ : Measure} (outer : Transformation m₁ m₂)
      (inner : Measurement m μ)
  | postprocess {m : Metric} {μ : Measure} (outer : Postprocessor) (inner : Measurement m μ)
  | compose {m : Metric} {μ : Measure} [Composable μ] (parts : List (Measurement m μ))
  | pureToFixed {m : Metric} {f : Format} (M : Measurement m (.maxDivergence f))
  | pureToConcentrated {m : Metric} {f : Format} (M : Measurement m (.maxDivergence f))
  | concentratedToCurve {m : Metric} {f : Format}
      (M : Measurement m (.zeroConcentratedDivergence f))
  | fixDelta {m : Metric} {μ : Measure} [DeltaFixable μ] (M : Measurement m μ)
      (δ : Binary μ.format)
  | amplify {m : Metric} {μ : Measure} [Amplifiable μ] (M : Measurement m μ) (population : Nat)
  | suppliedPostprocessor (inputDomain outputDomain : Domain) (function : Value → Result Value)

namespace Construction

def required : Construction → List Capability
  | laplace .. | gaussian .. | thresholdedCounts .. => [.contrib, .floatingPoint]
  | suppliedTransformation .. | suppliedMeasurement .. | amplify .. =>
    [.contrib, .honestButCurious]
  | _ => [.contrib]

section Build

variable [Elementary]

def build (caps : Capabilities) : Construction → Result Step
  | identity domain m => (Transformation.identity caps domain m).map .transformation
  | clamp t lower upper => (Transformation.clamp caps t lower upper).map .transformation
  | count record output => (Transformation.count caps record output).map .transformation
  | countBy key output => (Transformation.countBy caps key output).map .transformation
  | boundedSum method t lower upper =>
    (Transformation.boundedSum method caps t lower upper).map .transformation
  | sizedBoundedSum method size t lower upper =>
    (Transformation.sizedBoundedSum method caps size t lower upper).map .transformation
  | suppliedTransformation inputDomain outputDomain function stabilityMap =>
    (Transformation.supplied caps inputDomain outputDomain function stabilityMap).map
      .transformation
  | chainTransformation outer inner => (Transformation.chain caps outer inner).map .transformation
  | laplace arity f scale => (Measurement.laplace caps arity f scale).map .measurement
  | gaussian arity f scale => (Measurement.gaussian caps arity f scale).map .measurement
  | discreteLaplace arity t f scale =>
    (Measurement.discreteLaplace caps arity t f scale).map .measurement
  | discreteGaussian arity t f scale =>
    (Measurement.discreteGaussian caps arity t f scale).map .measurement
  | randomizedResponseBool f p => (Measurement.randomizedResponseBool caps f p).map .measurement
  | randomizedResponse a categories f p =>
    (Measurement.randomizedResponse caps a categories f p).map .measurement
  | thresholdedCounts key f scale threshold =>
    (Measurement.thresholdedCounts caps key f scale threshold).map .measurement
  | suppliedMeasurement inputDomain outputDomain function privacyMap =>
    (Measurement.supplied caps inputDomain outputDomain function privacyMap).map .measurement
  | chainMeasurement outer inner => (Measurement.chain caps outer inner).map .measurement
  | transformRelease outer inner =>
    (Measurement.transformRelease caps outer inner).map .measurement
  | postprocess outer inner => (Measurement.postprocess caps outer inner).map .measurement
  | compose parts => (Measurement.compose caps parts).map .measurement
  | pureToFixed M => (M.pureToFixed caps).map .measurement
  | pureToConcentrated M => (M.pureToConcentrated caps).map .measurement
  | concentratedToCurve M => (M.concentratedToCurve caps).map .measurement
  | fixDelta M δ => (M.fixDelta caps δ).map .measurement
  | amplify M population => (M.amplify caps population).map .measurement
  | suppliedPostprocessor inputDomain outputDomain function =>
    (Postprocessor.supplied caps inputDomain outputDomain function).map .postprocessor

/-- All of them begin with the gate, so there is nothing to show but that the rest stays the same. -/
theorem gated (K : Construction) : Gated K.required fun caps => K.build caps := by
  cases K <;> exact Gated.map ⟨_, fun _ => rfl⟩ _

/-- The first missing capability is the error, whatever the other arguments are, and with none
    missing a step is built, or is not, as if everything were enabled. -/
theorem build_behind_gate (K : Construction) (caps : Capabilities) :
    (∀ c, caps.FirstMissing K.required c → K.build caps = .error (.capabilityDisabled c)) ∧
    ((∃ c ∈ K.required, c ∉ caps) → ∃ c, caps.FirstMissing K.required c) ∧
    ((∀ c ∈ K.required, c ∈ caps) → K.build caps = K.build .all) :=
  ⟨fun _ => K.gated.eq_error,
    fun ⟨c, hc, hmissing⟩ => (caps.enabled_or_firstMissing K.required).resolve_left
      fun henabled => hmissing (henabled c hc),
    K.gated.eq_all⟩

end Build

/-- The scale is no scale, but that is only found out behind the gate. -/
theorem build_behind_gate_laplace :
    let K : Construction := .laplace .scalar .binary64 (-Binary.one)
    K.required = [.contrib, .floatingPoint] ∧
    @build Elementary.machine .empty K = .error (.capabilityDisabled .contrib) ∧
    (∃ c, Capabilities.FirstMissing ⟨true, false, true⟩ K.required c) ∧
    @build Elementary.machine ⟨true, false, true⟩ K =
      .error (.capabilityDisabled .floatingPoint) ∧
    @build Elementary.machine ⟨true, true, false⟩ K =
      .error (.invalidParameter (.notPositive "scale" (-Binary.one : Binary .binary64).toNumber)) ∧
    @build Elementary.machine ⟨true, true, false⟩ K = @build Elementary.machine .all K := by
  let _ := Elementary.machine
  intro K
  have hnone : Capabilities.empty.FirstMissing K.required .contrib :=
    ⟨[], [.floatingPoint], rfl, by simp, by decide⟩
  have hcontrib : Capabilities.FirstMissing ⟨true, false, true⟩ K.required .floatingPoint :=
    ⟨[.contrib], [], rfl, by decide, by decide⟩
  obtain ⟨hempty, -, -⟩ := build_behind_gate K .empty
  obtain ⟨herror, hexists, -⟩ := build_behind_gate K ⟨true, false, true⟩
  obtain ⟨-, -, hall⟩ := build_behind_gate K ⟨true, true, false⟩
  exact ⟨rfl, hempty _ hnone, hexists ⟨.floatingPoint, by decide, by decide⟩, herror _ hcontrib, rfl,
    hall (by decide)⟩

end Construction

/-! ### Programs -/

/-- A program that builds steps, each of them chosen in view of the one before. -/
inductive Script
  | done (s : Step)
  | build (K : Construction) (next : Step → Script)

namespace Script

variable [Elementary] {caps caps' : Capabilities}

def run (caps : Capabilities) : Script → Result Step
  | done s => .ok s
  | build K next => do (next (← K.build caps)).run caps

/-- A program runs as if everything were enabled, or stops at a capability that it does not have. -/
theorem run_eq_all_or_disabled (script : Script) (caps : Capabilities) :
    script.run caps = script.run .all ∨
      ∃ c, c ∉ caps ∧ script.run caps = .error (.capabilityDisabled c) := by
  induction script with
  | done s => exact Or.inl rfl
  | build K next ih =>
    change (K.build caps >>= fun s => (next s).run caps) =
        (K.build .all >>= fun s => (next s).run .all) ∨
      ∃ c, c ∉ caps ∧ (K.build caps >>= fun s => (next s).run caps) = _
    obtain henabled | ⟨c, hc⟩ := caps.enabled_or_firstMissing K.required
    · rw [K.gated.eq_all henabled]
      cases K.build .all with
      | error e => exact Or.inl rfl
      | ok s => exact ih s
    · have herror := K.gated.eq_error hc
      obtain ⟨before, after, -, -, hmissing⟩ := hc
      refine Or.inr ⟨c, hmissing, ?_⟩
      rw [herror]
      rfl

/-- More capabilities never turn a step that was built into another or into an error. -/
theorem run_mono (hsub : ∀ c ∈ caps, c ∈ caps') {script : Script} {s : Step}
    (h : script.run caps = .ok s) : script.run caps' = .ok s := by
  induction script with
  | done s' => exact h
  | build K next ih =>
    obtain ⟨step, hstep, h⟩ := bind_eq_ok_iff.mp h
    obtain henabled | ⟨c, hc⟩ := caps.enabled_or_firstMissing K.required
    · refine bind_eq_ok_iff.mpr ⟨step, ?_, ih step h⟩
      rw [K.gated.eq_all fun c hc => hsub c (henabled c hc), ← K.gated.eq_all henabled]
      exact hstep
    · rw [K.gated.eq_error hc] at hstep
      cases hstep

end Script

end DifferentialPrivacy
