import DifferentialPrivacy.Proofs.Accounting.ComposedRelease

set_option autoImplicit false

/-!
# Releases with an erased type

A measurement whose output is erased releases what it released before, tagged with the type of its
output domain: the value comes back at that type, and at no other. So measurements with outputs of
different types compose, and every entry of the composition is the output of its own part.
-/
namespace DifferentialPrivacy

/-- The value comes back as `y` at the type `t`, and at every other type it says that it has `t`. -/
def Value.RecoversTo (v : Value) (t : ValueType) (y : Value) : Prop :=
  v.recover t = .ok y ∧ ∀ s, s ≠ t → v.recover s = .error (.failedCast (.erased s t))

theorem Value.recoversTo_iff {v y : Value} {t : ValueType} : v.RecoversTo t y ↔ v = .erased t y := by
  constructor
  · rintro ⟨h, -⟩
    cases v with
    | erased s z =>
      change (if s = t then .ok z else .error _ : Result Value) = .ok y at h
      split at h
      · rename_i hs
        rw [hs, Except.ok.inj h]
      · cases h
    | _ => cases h
  · rintro rfl
    exact ⟨if_pos rfl, fun s hs => if_neg fun h => hs h.symm⟩

/-- Both releases succeed, and the erased one comes back as the plain one at the type `t` alone, or
    both fail with the same kind of error. -/
def ErasureOf (t : ValueType) : (erased plain : Result Value) → Prop
  | .ok v, .ok y => v.RecoversTo t y
  | .error e, .error e' => e.ctorIdx = e'.ctorIdx
  | _, _ => False

theorem Domain.erased_contains_erased (d : Domain) (y : Value) :
    (Domain.erased d).contains (.erased d.valueType y) = d.contains y := by
  simp [contains]

namespace Measurement

variable {m : Metric} {μ : Measure} {entropy : Entropy} {x : Value}

theorem invoke_eraseOutput (M : Measurement m μ) (entropy : Entropy) (x : Value) :
    ErasureOf M.outputDomain.valueType (M.eraseOutput.invoke entropy x) (M.invoke entropy x) := by
  unfold invoke invokeBetween eraseOutput
  dsimp only
  split
  · cases M.function entropy x with
    | error e => exact rfl
    | ok y =>
      change ErasureOf _
        (if (Domain.erased M.outputDomain).contains (.erased M.outputDomain.valueType y) then _
          else _)
        (if M.outputDomain.contains y then _ else _)
      rw [Domain.erased_contains_erased]
      split
      · exact Value.recoversTo_iff.mpr rfl
      · exact rfl
  · exact rfl

/-- The entry `v` of a composition is the output of the part `M`. Alone, `M` would release that very
    output, if it admits the input. -/
def EntryOf (M : Measurement m μ) (entropy : Entropy) (x v : Value) : Prop :=
  ∃ y, v.RecoversTo M.outputDomain.valueType y ∧ M.function entropy x = .ok y ∧
    (M.inputDomain.unerased = true ∨ M.inputDomain.contains x = true →
      M.invoke entropy x = .ok y)

theorem entryOf_of_eraseOutput {M : Measurement m μ} {v : Value}
    (hf : M.eraseOutput.function entropy x = .ok v)
    (hv : M.eraseOutput.outputDomain.contains v = true)
    (hx : M.inputDomain.unerased = true → M.inputDomain.contains x = true) :
    M.EntryOf entropy x v := by
  obtain ⟨y, hy, h⟩ := bind_eq_ok_iff.mp hf
  obtain rfl := Except.ok.inj h
  have hmem : M.outputDomain.contains y = true := by
    rw [← Domain.erased_contains_erased]
    exact hv
  refine ⟨y, Value.recoversTo_iff.mpr rfl, hy, fun h => ?_⟩
  exact invokeBetween_eq_ok (h.elim hx id) hy hmem

theorem entries_of_compose_eraseOutput [Composable μ] {caps : Capabilities}
    {parts : List (Measurement m μ)} {C : Measurement m μ}
    (h : compose caps (parts.map eraseOutput) = .ok C) {v : Value}
    (hv : C.invoke entropy x = .ok v) :
    ∃ vs, v = .list vs ∧ List.Forall₂
      (fun part v => part.1.EntryOf (entropy.child part.2) x v) parts.zipIdx vs := by
  obtain ⟨-, first, others, hparts, hlinks, rfl⟩ := compose_eq_ok_iff.mp h
  obtain ⟨hfirst, hrun, hout⟩ := invokeBetween_eq_ok_iff.mp hv
  obtain ⟨vs, hvs, hlist⟩ := bind_eq_ok_iff.mp hrun
  obtain rfl := Except.ok.inj hlist
  -- The first input domain admits the input, and all others equal it.
  have hinput : ∀ M ∈ parts, M.inputDomain.unerased = true → M.inputDomain.contains x = true := by
    intro M hM hu
    have hmem : M.eraseOutput ∈ first :: others := hparts ▸ List.mem_map_of_mem hM
    have heq : M.inputDomain.eq first.inputDomain = true := by
      rcases List.mem_cons.mp hmem with hM' | hM'
      · rw [← hM']
        exact Domain.eq_self _
      · exact hlinks M.eraseOutput hM'
    rw [Domain.contains_eq_of_eq _ _ hu heq]
    exact hfirst
  have hentries := forall₂_and_iff.mpr
    ⟨runAll_eq_ok_iff.mp hvs, containsEach_outputDomains_iff.mp hout⟩
  rw [List.zipIdx_map, List.forall₂_map_left_iff] at hentries
  refine ⟨vs, rfl, ?_⟩
  have hmem : ∀ part ∈ parts.zipIdx, part.1 ∈ parts := fun part hpart => List.fst_mem_of_mem_zipIdx hpart
  refine ((List.forall₂_and_left _ _).mpr ⟨hmem, hentries⟩).imp ?_
  rintro part v ⟨hpart, hf, hv⟩
  exact entryOf_of_eraseOutput hf hv (hinput _ hpart)

/-- Erasing the output of a measurement loses nothing: it succeeds on the same inputs, its values come
    back at the type of the output domain and at no other, its errors are of the same kind, and its
    map is the same. In a composition of erased measurements every entry comes back as the output of
    its own part. -/
theorem eraseOutput_lossless (M : Measurement m μ) (entropy : Entropy) (x : Value) :
    ErasureOf M.outputDomain.valueType (M.eraseOutput.invoke entropy x) (M.invoke entropy x) ∧
    (∀ d, M.eraseOutput.map d = M.map d) ∧
    ∀ [Composable μ] (caps : Capabilities) (parts : List (Measurement m μ)) (C : Measurement m μ),
      compose caps (parts.map eraseOutput) = .ok C → ∀ v, C.invoke entropy x = .ok v →
        ∃ vs, v = .list vs ∧ List.Forall₂
          (fun part v => part.1.EntryOf (entropy.child part.2) x v) parts.zipIdx vs :=
  ⟨M.invoke_eraseOutput entropy x, fun _ => rfl,
    fun _ _ _ h _ hv => entries_of_compose_eraseOutput h hv⟩

/-- Answers with a number. -/
def numberAnswer : Measurement .discrete (.maxDivergence .binary64) where
  inputDomain := .all .bool
  outputDomain := .all (.num (.int .i32))
  function
    | _, .bool b => .ok (.int (.clamp .i32 b.toNat))
    | _, v => .ok v
  privacyMap _ := .ok .one

/-- A truth value and a number come out of one composition, each at its own type. -/
theorem eraseOutput_lossless_answers :
    ∃ C v w, compose .all [(answer not (.ok .one)).eraseOutput, numberAnswer.eraseOutput] = .ok C ∧
      C.invoke (.simulated 7) (.bool true) = .ok (.list [v, w]) ∧
      v.RecoversTo (.atom .bool) (.bool false) ∧
      w.RecoversTo (.atom (.num (.int .i32))) (.int (.clamp .i32 1)) := by
  have hC : compose .all ([answer not (.ok .one), numberAnswer].map eraseOutput) = .ok _ := rfl
  obtain ⟨-, -, hentries⟩ := eraseOutput_lossless numberAnswer (.simulated 7) (.bool true)
  obtain ⟨vs, hvs, hall⟩ := hentries .all _ _ hC _ rfl
  obtain ⟨v, _, ⟨_, hv, hy, -⟩, hrest, rfl⟩ := List.forall₂_cons_left_iff.mp hall
  obtain ⟨w, _, ⟨_, hw, hz, -⟩, hnil, rfl⟩ := List.forall₂_cons_left_iff.mp hrest
  cases hnil
  cases hy
  cases hz
  exact ⟨_, v, w, hC, congrArg _ hvs, hv, hw⟩

end Measurement
end DifferentialPrivacy
