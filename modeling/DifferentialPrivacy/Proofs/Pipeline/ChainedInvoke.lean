import DifferentialPrivacy.Proofs.Pipeline.Chain

set_option autoImplicit false

/-!
# Invoking a chain and invoking its parts

A step refuses values outside of its domains, before and after its function runs. A chain runs both
functions between the outermost of these checks, so it gives all that its parts give one after the
other, and nothing more if every value that goes from one function to the other is admitted.
-/
namespace DifferentialPrivacy

namespace Postprocessor

variable {p inner outer : Postprocessor} {x y z : Value}

theorem invoke_eq_ok_iff : p.invoke x = .ok y ↔ p.inputDomain.contains x = true ∧
    p.function x = .ok y ∧ p.outputDomain.contains y = true :=
  invokeBetween_eq_ok_iff

/-- What goes from one function to the other on the way from an input to a member is a member of
    both domains between them. -/
def Admits (outer inner : Postprocessor) (x : Value) : Prop :=
  ∀ ⦃y z : Value⦄, inner.inputDomain.contains x = true → inner.function x = .ok y →
    outer.function y = .ok z → outer.outputDomain.contains z = true →
    inner.outputDomain.contains y = true ∧ outer.inputDomain.contains y = true

/-- A run succeeds with a value exactly when its parts do, one after the other. -/
def RunsParts (chained inner outer : Value → Result Value) (x : Value) : Prop :=
  ∀ z, chained x = .ok z ↔ ∃ y, inner x = .ok y ∧ outer y = .ok z

theorem invoke_after_eq_ok_iff : (outer.after inner).invoke x = .ok z ↔
    inner.inputDomain.contains x = true ∧ ∃ y, inner.function x = .ok y ∧
      outer.function y = .ok z ∧ outer.outputDomain.contains z = true := by
  rw [invoke_eq_ok_iff]
  constructor
  · rintro ⟨hx, hf, hz⟩
    obtain ⟨y, hy, hf⟩ := bind_eq_ok_iff.mp hf
    exact ⟨hx, y, hy, hf, hz⟩
  · rintro ⟨hx, y, hy, hf, hz⟩
    exact ⟨hx, bind_eq_ok_iff.mpr ⟨y, hy, hf⟩, hz⟩

theorem invoke_after_of_parts (hi : inner.invoke x = .ok y) (ho : outer.invoke y = .ok z) :
    (outer.after inner).invoke x = .ok z := by
  obtain ⟨hx, hy, -⟩ := invoke_eq_ok_iff.mp hi
  obtain ⟨-, hz, hmem⟩ := invoke_eq_ok_iff.mp ho
  exact invoke_after_eq_ok_iff.mpr ⟨hx, y, hy, hz, hmem⟩

theorem runsParts_iff :
    RunsParts (outer.after inner).invoke inner.invoke outer.invoke x ↔ outer.Admits inner x := by
  constructor
  · intro h y z hx hy hz hmem
    obtain ⟨y', hi, ho⟩ := (h z).mp (invoke_after_eq_ok_iff.mpr ⟨hx, y, hy, hz, hmem⟩)
    obtain ⟨-, hy', hout⟩ := invoke_eq_ok_iff.mp hi
    obtain ⟨hin, -, -⟩ := invoke_eq_ok_iff.mp ho
    obtain rfl := Except.ok.inj (hy.symm.trans hy')
    exact ⟨hout, hin⟩
  · intro h z
    constructor
    · intro hrun
      obtain ⟨hx, y, hy, hz, hmem⟩ := invoke_after_eq_ok_iff.mp hrun
      obtain ⟨hout, hin⟩ := h hx hy hz hmem
      exact ⟨y, invoke_eq_ok_iff.mpr ⟨hx, hy, hout⟩, invoke_eq_ok_iff.mpr ⟨hin, hz, hmem⟩⟩
    · rintro ⟨y, hi, ho⟩
      exact invoke_after_of_parts hi ho

theorem Closed.admits (h : inner.Closed) (hlink : inner.outputDomain.eq outer.inputDomain = true)
    (hu : inner.outputDomain.unerased = true) (x : Value) : outer.Admits inner x :=
  fun _ _ hx hy _ _ => ⟨h hx hy, h.contains_of_link hlink hu hx hy⟩

structure ChainRun (chained : Value → Result Value) (inner outer : Postprocessor) (x : Value) :
    Prop where
  eq_ok_iff : ∀ z, chained x = .ok z ↔ inner.inputDomain.contains x = true ∧
    ∃ y, inner.function x = .ok y ∧ outer.function y = .ok z ∧ outer.outputDomain.contains z = true
  of_parts : ∀ {y z : Value}, inner.invoke x = .ok y → outer.invoke y = .ok z → chained x = .ok z
  runsParts_iff : RunsParts chained inner.invoke outer.invoke x ↔ outer.Admits inner x
  runsParts_of_closed : inner.outputDomain.unerased = true → inner.Closed →
    RunsParts chained inner.invoke outer.invoke x

theorem chainRun_after (outer inner : Postprocessor)
    (hlink : inner.outputDomain.eq outer.inputDomain = true) :
    ChainRun (outer.after inner).invoke inner outer x where
  eq_ok_iff _ := invoke_after_eq_ok_iff
  of_parts := invoke_after_of_parts
  runsParts_iff := runsParts_iff
  runsParts_of_closed hu h := Postprocessor.runsParts_iff.mpr (h.admits hlink hu x)

end Postprocessor

open Postprocessor

/-- Each way of chaining gives what its parts give one after the other. On an input it gives
    nothing else exactly if the value between the parts is admitted, as it is wherever the inner
    function keeps to its domains. -/
theorem chain_invoke_runs_parts_iff (m m' m'' : Metric) (μ : Measure) (entropy : Entropy)
    (x : Value) :
    (∀ {caps : Capabilities} {outer : Transformation m' m''} {inner : Transformation m m'}
      {C : Transformation m m''}, Transformation.chain caps outer inner = .ok C →
      ChainRun C.invoke inner.stage outer.stage x) ∧
    (∀ {caps : Capabilities} {outer : Measurement m' μ} {inner : Transformation m m'}
      {C : Measurement m μ}, Measurement.chain caps outer inner = .ok C →
      ChainRun (C.invoke entropy) inner.stage (outer.stage entropy) x) ∧
    (∀ {caps : Capabilities} {outer : Transformation m' m''} {inner C : Measurement m μ},
      Measurement.transformRelease caps outer inner = .ok C →
      ChainRun (C.invoke entropy) (inner.stage entropy) outer.stage x) ∧
    (∀ {caps : Capabilities} {outer : Postprocessor} {inner C : Measurement m μ},
      Measurement.postprocess caps outer inner = .ok C →
      ChainRun (C.invoke entropy) (inner.stage entropy) outer x) := by
  refine ⟨?_, ?_, ?_, ?_⟩
  · intro caps outer inner C h
    obtain ⟨-, hlink, rfl⟩ := Transformation.chain_eq_ok_iff.mp h
    exact chainRun_after outer.stage inner.stage hlink
  · intro caps outer inner C h
    obtain ⟨-, hlink, rfl⟩ := Measurement.chain_eq_ok_iff.mp h
    exact chainRun_after (outer.stage entropy) inner.stage hlink
  · intro caps outer inner C h
    obtain ⟨-, hlink, rfl⟩ := Measurement.postprocess_eq_ok_iff.mp h
    exact chainRun_after outer.stage (inner.stage entropy) hlink
  · intro caps outer inner C h
    obtain ⟨-, hlink, rfl⟩ := Measurement.postprocess_eq_ok_iff.mp h
    exact chainRun_after outer (inner.stage entropy) hlink

def negation : Transformation .discrete .discrete where
  inputDomain := .all .bool
  outputDomain := .all .bool
  function
    | .bool b => .ok (.bool !b)
    | v => .ok v
  stabilityMap := .ok

def disclosure : Measurement .discrete (.maxDivergence .binary64) where
  inputDomain := .all .bool
  outputDomain := .all .bool
  function _ := .ok
  privacyMap _ := .ok Binary.infinity

theorem chain_invoke_runs_parts_negation :
    (∃ C, Transformation.chain .all negation negation = .ok C ∧
      RunsParts C.invoke negation.invoke negation.invoke (.bool true)) ∧
    (∃ C, Measurement.chain .all disclosure negation = .ok C ∧
      RunsParts (C.invoke (.simulated 7)) negation.invoke (disclosure.invoke (.simulated 7))
        (.bool true)) ∧
    (∃ C, Measurement.transformRelease .all negation disclosure = .ok C ∧
      RunsParts (C.invoke (.simulated 7)) (disclosure.invoke (.simulated 7)) negation.invoke
        (.bool true)) ∧
    ∃ C, Measurement.postprocess .all negation.stage disclosure = .ok C ∧
      RunsParts (C.invoke (.simulated 7)) (disclosure.invoke (.simulated 7)) negation.invoke
        (.bool true) := by
  have hnegation : negation.stage.Closed := by
    intro x y hx hy
    cases x with
    | bool b =>
      cases hy
      rfl
    | _ => cases hx
  have hdisclosure : (disclosure.stage (.simulated 7)).Closed := by
    intro x y hx hy
    cases hy
    exact hx
  obtain ⟨htt, hmt, htm, hpm⟩ := chain_invoke_runs_parts_iff .discrete .discrete .discrete
    (.maxDivergence .binary64) (.simulated 7) (.bool true)
  have hC : Transformation.chain .all negation negation = .ok (negation.after negation) := rfl
  have hM : Measurement.chain .all disclosure negation = .ok (disclosure.after negation) := rfl
  have hT : Measurement.transformRelease .all negation disclosure =
      .ok (disclosure.andThen negation.stage) := rfl
  have hP : Measurement.postprocess .all negation.stage disclosure =
      .ok (disclosure.andThen negation.stage) := rfl
  refine ⟨⟨_, hC, ?_⟩, ⟨_, hM, ?_⟩, ⟨_, hT, ?_⟩, _, hP, ?_⟩
  · exact (htt hC).runsParts_of_closed rfl hnegation
  · exact (hmt hM).runsParts_of_closed rfl hnegation
  · exact (htm hT).runsParts_of_closed rfl hdisclosure
  · exact (hpm hP).runsParts_of_closed rfl hdisclosure

def undefinedNumber : Transformation (.absolute (.float .binary64)) (.absolute (.float .binary64))
    where
  inputDomain := .all (.num (.float .binary64))
  outputDomain := .all (.num (.float .binary64))
  function _ := .ok (.float (f := .binary64) .nan)
  stabilityMap := .ok

def presence : Transformation (.absolute (.float .binary64)) .discrete where
  inputDomain := .all (.num (.float .binary64))
  outputDomain := .all .bool
  function _ := .ok (.bool true)
  stabilityMap _ := .ok Integer.one

/-- Not-a-number goes through a link between domains that it is no member of. -/
theorem chain_invoke_admits_nan :
    ∃ C, Transformation.chain .all presence undefinedNumber = .ok C ∧
      C.invoke (.float (f := .binary64) .zero) = .ok (.bool true) ∧
      undefinedNumber.invoke (.float (f := .binary64) .zero) =
        .error (.failedFunction (.output (.all (.num (.float .binary64))))) ∧
      ¬RunsParts C.invoke undefinedNumber.invoke presence.invoke
        (.float (f := .binary64) .zero) := by
  have hchained : (presence.after undefinedNumber).invoke (.float (f := .binary64) .zero) =
      .ok (.bool true) := by rfl
  have hinner : undefinedNumber.invoke (.float (f := .binary64) .zero) =
      .error (.failedFunction (.output (.all (.num (.float .binary64))))) := by rfl
  refine ⟨_, Transformation.chain_eq_ok_iff.mpr ⟨rfl, rfl, rfl⟩, hchained, hinner, ?_⟩
  intro h
  obtain ⟨y, hy, -⟩ := (h _).mp hchained
  rw [hinner] at hy
  cases hy

end DifferentialPrivacy
