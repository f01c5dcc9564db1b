import DifferentialPrivacy.Proofs.Pipeline.Chain

set_option autoImplicit false

/-!
# The map of a chain and the maps of its steps

A step checks the distance that it is asked about, but a chain checks only the first: the distances
between its steps go from one raw map into the next. Asking the steps one after the other comes to
the same as asking the chain where those distances are legal.
-/
namespace DifferentialPrivacy

variable {m m' m'' : Metric} {μ : Measure} {caps : Capabilities}

/-- Both succeed with the same value, or both fail with the same kind of error. -/
def Agree {α : Type} : Result α → Result α → Prop
  | .ok x, .ok y => x = y
  | .error e, .error e' => e.ctorIdx = e'.ctorIdx
  | _, _ => False

/-- The error of a distance that a map is not defined at. -/
def Undefined {α : Type} (r : Result α) : Prop := ∃ fault, r = .error (.undefinedMap fault)

theorem Agree.refl {α : Type} (r : Result α) : Agree r r := by
  cases r <;> rfl

theorem agree_iff_of_undefined {α : Type} {r r' : Result α} (h : Undefined r') :
    Agree r r' ↔ Undefined r := by
  obtain ⟨fault, rfl⟩ := h
  constructor
  · intro h
    cases r with
    | ok x => exact h.elim
    | error e =>
      have hidx : e.ctorIdx = (Error.undefinedMap fault).ctorIdx := h
      cases e with
      | undefinedMap fault' => exact ⟨fault', rfl⟩
      | _ => cases hidx
  · rintro ⟨fault', rfl⟩
    rfl

theorem Undefined.bind {α β : Type} {r : Result α} (h : Undefined r) (f : α → Result β) :
    Undefined (r >>= f) := by
  obtain ⟨fault, rfl⟩ := h
  exact ⟨fault, rfl⟩

/-- A composition `r'` is undefined unless it is legal, and comes to the same as `r` if it is, or
    if `r` happens to be undefined as well. -/
def AgreeWhere {α : Type} (legal : Prop) (r r' : Result α) : Prop :=
  (Agree r r' ↔ legal ∨ Undefined r) ∧ (¬legal → Undefined r')

theorem AgreeWhere.of_eq {α : Type} {r r' : Result α} {legal : Prop} (hlegal : legal → r' = r)
    (hillegal : ¬legal → Undefined r') : AgreeWhere legal r r' := by
  refine ⟨?_, hillegal⟩
  by_cases h : legal
  · rw [hlegal h]
    exact ⟨fun _ => Or.inl h, fun _ => Agree.refl r⟩
  · rw [agree_iff_of_undefined (hillegal h)]
    exact ⟨Or.inr, fun hr => hr.resolve_left h⟩

/-! ### Maps behind the check of a distance -/

namespace Metric

def Legal (m : Metric) (d : m.Distance) : Prop := m.distanceType.checkDistance d = .ok ()

/-- A raw map behind the check of its distance, as every step has it. -/
def guarded {α : Type} (m : Metric) (map : m.Distance → Result α) (d : m.Distance) : Result α := do
  m.distanceType.checkDistance d
  map d

variable {α β : Type} {map : m.Distance → Result α} {d : m.Distance}

theorem guarded_of_legal (h : m.Legal d) : m.guarded map d = map d := by
  unfold guarded
  rw [h]
  rfl

theorem guarded_of_not_legal (h : ¬m.Legal d) : m.guarded map d =
    .error (.undefinedMap (.distance ⟨m.distanceType, d⟩)) := by
  have hcheck : m.distanceType.checkDistance d =
      .error (.undefinedMap (.distance ⟨m.distanceType, d⟩)) := by
    unfold Legal at h
    unfold NumType.checkDistance at h ⊢
    split
    · rfl
    · rename_i hd
      rw [if_neg hd] at h
      exact absurd rfl h
  unfold guarded
  rw [hcheck]
  rfl

theorem guarded_bind (map' : α → Result β) :
    m.guarded (fun d => map d >>= map') d = m.guarded map d >>= map' := by
  unfold guarded
  rw [bind_assoc]

end Metric

theorem Measurement.map_of_legal {M : Measurement m μ} {d : m.Distance} (hd : m.Legal d) :
    M.map d = M.privacyMap d := Metric.guarded_of_legal hd

section Link

variable {α : Type} {r : Result m.Distance} {map : m.Distance → Result α}

theorem bind_guarded_of_legal (h : ∀ d, r = .ok d → m.Legal d) :
    r >>= m.guarded map = r >>= map := by
  cases r with
  | error e => rfl
  | ok d => exact Metric.guarded_of_legal (h d rfl)

theorem undefined_bind_guarded (h : ¬∀ d, r = .ok d → m.Legal d) :
    Undefined (r >>= m.guarded map) := by
  obtain ⟨d, hd⟩ := Classical.not_forall.mp h
  obtain ⟨rfl, hillegal⟩ := Classical.not_imp.mp hd
  exact ⟨_, Metric.guarded_of_not_legal hillegal⟩

theorem guarded_bind_agreeWhere {map : m.Distance → Result m'.Distance}
    {map' : m'.Distance → Result α} {d : m.Distance} :
    AgreeWhere (∀ d', m.guarded map d = .ok d' → m'.Legal d')
      (m.guarded (fun d => map d >>= map') d) (m.guarded map d >>= m'.guarded map') := by
  apply AgreeWhere.of_eq
  · intro h
    rw [Metric.guarded_bind, bind_guarded_of_legal h]
  · exact undefined_bind_guarded

end Link

/-! ### The steps of a chain one after the other -/

namespace Chain

/-- The maps of the steps, asked one after the other. -/
def composed {m m' : Metric} : Chain m m' → m.Distance → Result m'.Distance
  | step t, d => t.map d
  | link _ outer inner, d => do outer.composed (← inner.composed d)

def Legal {m m' : Metric} : Chain m m' → m.Distance → Prop
  | step _, _ => True
  | @link _ m' _ _ outer inner, d =>
    inner.Legal d ∧ ∀ d', inner.composed d = .ok d' → m'.Legal d' ∧ outer.Legal d'

theorem composed_of_not_legal (c : Chain m m') {d : m.Distance} (h : ¬m.Legal d) :
    Undefined (c.composed d) := by
  induction c with
  | step t => exact ⟨_, Metric.guarded_of_not_legal h⟩
  | link caps outer inner _ ih => exact (ih h).bind _

theorem composed_eq_map {c : Chain m m'} {T : Transformation m m'} (hT : c.build = .ok T)
    {d : m.Distance} (h : c.Legal d) : c.composed d = T.map d := by
  induction c with
  | step t =>
    cases hT
    rfl
  | link caps outer inner iho ihi =>
    obtain ⟨U, V, hU, hV, hUV⟩ := build_link_eq_ok_iff.mp hT
    obtain ⟨-, -, rfl⟩ := Transformation.chain_eq_ok_iff.mp hUV
    obtain ⟨hinner, hmiddle⟩ := h
    have hraw : (U.after V).map d = V.map d >>= U.stabilityMap := Metric.guarded_bind _
    change inner.composed d >>= outer.composed = _
    rw [hraw, ← ihi hV hinner]
    cases hd : inner.composed d with
    | error e => rfl
    | ok d' =>
      obtain ⟨hlegal, houter⟩ := hmiddle d' hd
      change outer.composed d' = U.stabilityMap d'
      rw [iho hU houter]
      exact Metric.guarded_of_legal hlegal

theorem undefined_composed {c : Chain m m'} {d : m.Distance} (h : ¬c.Legal d) :
    Undefined (c.composed d) := by
  induction c with
  | step t => exact absurd trivial h
  | link caps outer inner iho ihi =>
    by_cases hinner : inner.Legal d
    · obtain ⟨d', hd'⟩ := Classical.not_forall.mp fun hall => h ⟨hinner, hall⟩
      obtain ⟨hd, hmiddle⟩ := Classical.not_imp.mp hd'
      change Undefined (inner.composed d >>= outer.composed)
      rw [hd]
      by_cases hlegal : Metric.Legal _ d'
      · exact iho fun houter => hmiddle ⟨hlegal, houter⟩
      · exact outer.composed_of_not_legal hlegal
    · exact (ihi hinner).bind _

end Chain

/-- A chained map and the maps of its steps agree on a distance if those between the steps are
    legal, for one link and for chains of any depth. Elsewhere the steps are undefined, and the
    chain is whatever its raw maps make of the distance. -/
theorem chain_map_agrees_iff (m m' m'' : Metric) (μ : Measure) (d : m.Distance) :
    (∀ {caps : Capabilities} {outer : Transformation m' m''} {inner : Transformation m m'}
      {C : Transformation m m''}, Transformation.chain caps outer inner = .ok C →
      AgreeWhere (∀ d', inner.map d = .ok d' → m'.Legal d') (C.map d)
        (inner.map d >>= outer.map)) ∧
    (∀ {caps : Capabilities} {outer : Measurement m' μ} {inner : Transformation m m'}
      {C : Measurement m μ}, Measurement.chain caps outer inner = .ok C →
      AgreeWhere (∀ d', inner.map d = .ok d' → m'.Legal d') (C.map d)
        (inner.map d >>= outer.map)) ∧
    (∀ {c : Chain m m'} {T : Transformation m m'}, c.build = .ok T →
      AgreeWhere (c.Legal d) (T.map d) (c.composed d)) ∧
    (∀ {c : Chain m m'} {T : Transformation m m'} {caps : Capabilities}
      {outer : Measurement m' μ} {C : Measurement m μ}, c.build = .ok T →
      Measurement.chain caps outer T = .ok C →
      AgreeWhere (c.Legal d ∧ ∀ d', c.composed d = .ok d' → m'.Legal d') (C.map d)
        (c.composed d >>= outer.map)) := by
  refine ⟨?_, ?_, ?_, ?_⟩
  · intro caps outer inner C h
    obtain ⟨-, -, rfl⟩ := Transformation.chain_eq_ok_iff.mp h
    exact guarded_bind_agreeWhere
  · intro caps outer inner C h
    obtain ⟨-, -, rfl⟩ := Measurement.chain_eq_ok_iff.mp h
    exact guarded_bind_agreeWhere
  · intro c T hT
    exact .of_eq (Chain.composed_eq_map hT) Chain.undefined_composed
  · intro c T caps outer C hT hC
    obtain ⟨-, -, rfl⟩ := Measurement.chain_eq_ok_iff.mp hC
    have hraw : (outer.after T).map d = T.map d >>= outer.privacyMap := Metric.guarded_bind _
    apply AgreeWhere.of_eq
    · rintro ⟨hc, hall⟩
      rw [hraw, ← Chain.composed_eq_map hT hc]
      exact bind_guarded_of_legal hall
    · intro h
      by_cases hc : c.Legal d
      · exact undefined_bind_guarded fun hall => h ⟨hc, hall⟩
      · exact (Chain.undefined_composed hc).bind _

def multiplied (factor : Int) :
    Transformation (.absolute (.int .i32)) (.absolute (.int .i32)) where
  inputDomain := .all (.num (.int .i32))
  outputDomain := .all (.num (.int .i32))
  function := .ok
  stabilityMap := Transformation.scaleBy _ _ (.clamp .i32 factor)

def reveal : Measurement (.absolute (.int .i32)) (.maxDivergence .binary64) where
  inputDomain := .all (.num (.int .i32))
  outputDomain := .all (.num (.int .i32))
  function _ := .ok
  privacyMap _ := .ok Binary.infinity

theorem chain_map_agrees_multiplied :
    (∃ C, Transformation.chain .all (multiplied 3) (multiplied 2) = .ok C ∧
      Agree (C.map Integer.one) ((multiplied 2).map Integer.one >>= (multiplied 3).map)) ∧
    (∃ M, Measurement.chain .all reveal (multiplied 2) = .ok M ∧
      Agree (M.map Integer.one) ((multiplied 2).map Integer.one >>= reveal.map)) ∧
    ∃ T M, (Chain.link .all (.step (multiplied 3)) (.step (multiplied 2))).build = .ok T ∧
      Measurement.chain .all reveal T = .ok M ∧
      Agree (T.map Integer.one) ((multiplied 2).map Integer.one >>= (multiplied 3).map) ∧
      Agree (M.map Integer.one)
        (((multiplied 2).map Integer.one >>= (multiplied 3).map) >>= reveal.map) := by
  have htwo : ∀ d, (multiplied 2).map Integer.one = .ok d →
      Metric.Legal (.absolute (.int .i32)) d := by
    rintro _ ⟨⟩
    rfl
  have hsix : ∀ d, ((multiplied 2).map Integer.one >>= (multiplied 3).map) = .ok d →
      Metric.Legal (.absolute (.int .i32)) d := by
    rintro _ ⟨⟩
    rfl
  have hlegal : (Chain.link .all (.step (multiplied 3)) (.step (multiplied 2))).Legal
      Integer.one := ⟨trivial, fun d hd => ⟨htwo d hd, trivial⟩⟩
  have hC : Transformation.chain .all (multiplied 3) (multiplied 2) =
      .ok ((multiplied 3).after (multiplied 2)) := rfl
  have hM : Measurement.chain .all reveal (multiplied 2) = .ok (reveal.after (multiplied 2)) := rfl
  have hN : Measurement.chain .all reveal ((multiplied 3).after (multiplied 2)) =
      .ok (reveal.after ((multiplied 3).after (multiplied 2))) := rfl
  have hT : (Chain.link .all (.step (multiplied 3)) (.step (multiplied 2))).build =
      .ok ((multiplied 3).after (multiplied 2)) := rfl
  obtain ⟨htt, hmt, hdeep, hmeasured⟩ := chain_map_agrees_iff (.absolute (.int .i32))
    (.absolute (.int .i32)) (.absolute (.int .i32)) (.maxDivergence .binary64) Integer.one
  refine ⟨⟨_, hC, ?_⟩, ⟨_, hM, ?_⟩, _, _, hT, hN, ?_, ?_⟩
  · exact (htt hC).1.mpr (Or.inl htwo)
  · exact (hmt hM).1.mpr (Or.inl htwo)
  · exact (hdeep hT).1.mpr (Or.inl hlegal)
  · exact (hmeasured hT hN).1.mpr (Or.inl ⟨hlegal, hsix⟩)

/-- The negative distance is legal to neither step, but the chain goes on with it. -/
theorem chain_map_disagrees_multiplied :
    ∃ C, Transformation.chain .all (multiplied 1) (multiplied (-1)) = .ok C ∧
      C.map Integer.one = .ok (.clamp .i32 (-1)) ∧
      ((multiplied (-1)).map Integer.one >>= (multiplied 1).map) =
        .error (.undefinedMap (.distance ⟨.int .i32, .clamp .i32 (-1)⟩)) ∧
      ¬Agree (C.map Integer.one) ((multiplied (-1)).map Integer.one >>= (multiplied 1).map) := by
  have hchained : ((multiplied 1).after (multiplied (-1))).map Integer.one =
      .ok (.clamp .i32 (-1)) := by rfl
  have hsteps : ((multiplied (-1)).map Integer.one >>= (multiplied 1).map) =
      .error (.undefinedMap (.distance ⟨.int .i32, .clamp .i32 (-1)⟩)) := by rfl
  refine ⟨_, Transformation.chain_eq_ok_iff.mpr ⟨rfl, rfl, rfl⟩, hchained, hsteps, ?_⟩
  rw [hchained, hsteps]
  exact id

end DifferentialPrivacy
