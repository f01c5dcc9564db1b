import DifferentialPrivacy.Pipeline.Measurement
import DifferentialPrivacy.Proofs.Dataset.Records
import DifferentialPrivacy.Proofs.Domain.Equality

set_option autoImplicit false

/-!
# Chains of steps

Every way of chaining builds one plain composite once its link is accepted: the functions run one
after the other and so do the maps, with nothing looked at in between. A `Chain` is a way to put any
number of transformations together.
-/
namespace DifferentialPrivacy

variable {m m' m'' : Metric} {μ : Measure}

theorem checkLink_eq_ok_iff {role : String} {expected found : Domain} :
    checkLink role expected found = .ok () ↔ found.eq expected = true := by
  unfold checkLink
  split
  · rename_i h
    exact ⟨fun _ => h, fun _ => rfl⟩
  · rename_i h
    exact ⟨fun he => (by cases he), fun he => absurd he h⟩

section Gate

variable {α : Type} {caps : Capabilities} {required : List Capability} {built B : α}

/-- A step behind a gate is built if the gate is open, and there is one way to build it. -/
theorem gated_eq_ok_iff : (do caps.require required; return built : Result α) = .ok B ↔
    caps.require required = .ok () ∧ B = built := by
  rw [bind_eq_ok_iff]
  constructor
  · rintro ⟨_, hcaps, h⟩
    exact ⟨hcaps, (Except.ok.inj h).symm⟩
  · rintro ⟨hcaps, rfl⟩
    exact ⟨_, hcaps, rfl⟩

/-- The same with a check of an argument behind the gate. -/
theorem checked_eq_ok_iff {check : Result Unit} :
    (do caps.require required; check; return built : Result α) = .ok B ↔
      caps.require required = .ok () ∧ check = .ok () ∧ B = built := by
  rw [bind_eq_ok_iff]
  constructor
  · rintro ⟨_, hcaps, h⟩
    obtain ⟨_, hcheck, h⟩ := bind_eq_ok_iff.mp h
    exact ⟨hcaps, hcheck, (Except.ok.inj h).symm⟩
  · rintro ⟨hcaps, hcheck, rfl⟩
    exact ⟨_, hcaps, bind_eq_ok_iff.mpr ⟨_, hcheck, rfl⟩⟩

/-- What every way of chaining does before it puts two steps together. -/
theorem linked_eq_ok_iff {role : String} {expected found : Domain} :
    (do caps.require [.contrib]; checkLink role expected found; return built : Result α) = .ok B ↔
      caps.require [.contrib] = .ok () ∧ found.eq expected = true ∧ B = built :=
  checked_eq_ok_iff.trans (and_congr_right' (and_congr_left' checkLink_eq_ok_iff))

end Gate

/-! ### Composites -/

namespace Postprocessor

def after (outer inner : Postprocessor) : Postprocessor where
  inputDomain := inner.inputDomain
  outputDomain := outer.outputDomain
  function x := inner.function x >>= outer.function

/-- The function keeps to its domains. -/
def Closed (p : Postprocessor) : Prop :=
  ∀ ⦃x y : Value⦄, p.inputDomain.contains x = true → p.function x = .ok y →
    p.outputDomain.contains y = true

/-- What leaves the inner step of a link enters the outer one. -/
theorem Closed.contains_of_link {inner : Postprocessor} (h : inner.Closed) {expected : Domain}
    (hlink : inner.outputDomain.eq expected = true) (hu : inner.outputDomain.unerased = true)
    {x y : Value} (hx : inner.inputDomain.contains x = true) (hy : inner.function x = .ok y) :
    expected.contains y = true := by
  rw [← Domain.contains_eq_of_eq _ _ hu hlink]
  exact h hx hy

end Postprocessor

namespace Transformation

def after (outer : Transformation m' m'') (inner : Transformation m m') :
    Transformation m m'' where
  inputDomain := inner.inputDomain
  outputDomain := outer.outputDomain
  function x := inner.function x >>= outer.function
  stabilityMap d := inner.stabilityMap d >>= outer.stabilityMap

/-- The step that returns its input, as it is once it is built. -/
def unit (domain : Domain) (m : Metric) : Transformation m m where
  inputDomain := domain
  outputDomain := domain
  function := .ok
  stabilityMap := .ok

def stage (t : Transformation m m') : Postprocessor :=
  ⟨t.inputDomain, t.outputDomain, t.function⟩

theorem identity_eq_ok_iff {caps : Capabilities} {domain : Domain} {I : Transformation m m} :
    identity caps domain m = .ok I ↔ caps.require [.contrib] = .ok () ∧ I = unit domain m :=
  gated_eq_ok_iff

theorem chain_eq_ok_iff {caps : Capabilities} {outer : Transformation m' m''}
    {inner : Transformation m m'} {C : Transformation m m''} :
    chain caps outer inner = .ok C ↔ caps.require [.contrib] = .ok () ∧
      inner.outputDomain.eq outer.inputDomain = true ∧ C = outer.after inner :=
  linked_eq_ok_iff

end Transformation

namespace Measurement

def after (outer : Measurement m' μ) (inner : Transformation m m') : Measurement m μ where
  inputDomain := inner.inputDomain
  outputDomain := outer.outputDomain
  function entropy x := inner.function x >>= outer.function entropy
  privacyMap d := inner.stabilityMap d >>= outer.privacyMap

def andThen (inner : Measurement m μ) (outer : Postprocessor) : Measurement m μ where
  inputDomain := inner.inputDomain
  outputDomain := outer.outputDomain
  function entropy x := inner.function entropy x >>= outer.function
  privacyMap := inner.privacyMap

/-- The function of a measurement between its domains, with its randomness fixed. -/
def stage (M : Measurement m μ) (entropy : Entropy) : Postprocessor :=
  ⟨M.inputDomain, M.outputDomain, M.function entropy⟩

theorem chain_eq_ok_iff {caps : Capabilities} {outer : Measurement m' μ}
    {inner : Transformation m m'} {C : Measurement m μ} :
    chain caps outer inner = .ok C ↔ caps.require [.contrib] = .ok () ∧
      inner.outputDomain.eq outer.inputDomain = true ∧ C = outer.after inner :=
  linked_eq_ok_iff

theorem postprocess_eq_ok_iff {caps : Capabilities} {outer : Postprocessor}
    {inner C : Measurement m μ} :
    postprocess caps outer inner = .ok C ↔ caps.require [.contrib] = .ok () ∧
      inner.outputDomain.eq outer.inputDomain = true ∧ C = inner.andThen outer :=
  linked_eq_ok_iff

end Measurement

/-! ### Chains of any length -/

/-- A way to chain transformations: the links are made in any order, each with its own
    capabilities. -/
inductive Chain : Metric → Metric → Type
  | step {m m' : Metric} (t : Transformation m m') : Chain m m'
  | link {m m' m'' : Metric} (caps : Capabilities) (outer : Chain m' m'') (inner : Chain m m') :
      Chain m m''

namespace Chain

def build {m m' : Metric} : Chain m m' → Result (Transformation m m')
  | step t => .ok t
  | link caps outer inner => do Transformation.chain caps (← outer.build) (← inner.build)

def Every (p : ∀ {m m' : Metric}, Transformation m m' → Prop) {m m' : Metric} : Chain m m' → Prop
  | step t => p t
  | link _ outer inner => outer.Every p ∧ inner.Every p

theorem build_link_eq_ok_iff {caps : Capabilities} {outer : Chain m' m''} {inner : Chain m m'}
    {C : Transformation m m''} : (link caps outer inner).build = .ok C ↔
      ∃ T U, outer.build = .ok T ∧ inner.build = .ok U ∧ Transformation.chain caps T U = .ok C := by
  change (outer.build >>= fun T => inner.build >>= fun U => Transformation.chain caps T U) = _ ↔ _
  constructor
  · intro h
    obtain ⟨T, hT, h⟩ := bind_eq_ok_iff.mp h
    obtain ⟨U, hU, h⟩ := bind_eq_ok_iff.mp h
    exact ⟨T, U, hT, hU, h⟩
  · rintro ⟨T, U, hT, hU, h⟩
    rw [hT, hU]
    exact h

/-- What chaining preserves holds of a chain if it holds of its transformations. -/
theorem of_every {p : ∀ {m m' : Metric}, Transformation m m' → Prop}
    (hchain : ∀ {m m' m'' : Metric} {caps : Capabilities} {outer : Transformation m' m''}
      {inner : Transformation m m'} {C : Transformation m m''},
      Transformation.chain caps outer inner = .ok C → p outer → p inner → p C)
    {m m' : Metric} {c : Chain m m'} (hc : c.Every p) {T : Transformation m m'}
    (hT : c.build = .ok T) : p T := by
  induction c with
  | step t =>
    cases hT
    exact hc
  | link caps outer inner iho ihi =>
    obtain ⟨U, V, hU, hV, hUV⟩ := build_link_eq_ok_iff.mp hT
    exact hchain hUV (iho hc.1 hU) (ihi hc.2 hV)

end Chain
end DifferentialPrivacy
