import DifferentialPrivacy.Proofs.Metric.SymmetricDistance
import DifferentialPrivacy.Proofs.Pipeline.Chain

set_option autoImplicit false

/-!
# Chaining preserves validity

A chained function does not look at the value between its parts, so its bound rests on the link: the
domains on both sides of it must have the same members. What it means for values to be near, and for
two releases to be close, is left open. A transformation need not have a value for every member, and a
chained measurement says nothing about the members that it has none for: there it fails, which it may
not do on members nearby.
-/
namespace DifferentialPrivacy

/-- Whether two values lie within a distance of each other. -/
abbrev Nearness := (m : Metric) → m.Distance → Value → Value → Prop

/-- Whether two randomized releases differ by no more than a loss. -/
abbrev Closeness (μ : Measure) :=
  μ.Loss → (Entropy → Result Value) → (Entropy → Result Value) → Prop

variable {near : Nearness} {m m' m'' : Metric} {μ : Measure} {close : Closeness μ}

structure Transformation.Valid (near : Nearness) (t : Transformation m m') : Prop where
  closed : t.stage.Closed
  stable : ∀ ⦃d : m.Distance⦄ ⦃d' : m'.Distance⦄ ⦃x x' y y' : Value⦄,
    t.inputDomain.contains x = true → t.inputDomain.contains x' = true → near m d x x' →
    t.stabilityMap d = .ok d' → t.function x = .ok y → t.function x' = .ok y' → near m' d' y y'

namespace Measurement

/-- The loss at a distance bounds the difference of the releases of any two members within it, among
    those with a property. -/
def PrivateOn (p : Value → Prop) (near : Nearness) (close : Closeness μ) (M : Measurement m μ) :
    Prop :=
  ∀ ⦃d : m.Distance⦄ ⦃loss : μ.Loss⦄ ⦃x x' : Value⦄, M.inputDomain.contains x = true →
    M.inputDomain.contains x' = true → near m d x x' → M.privacyMap d = .ok loss → p x → p x' →
    close loss (fun entropy => M.function entropy x) (fun entropy => M.function entropy x')

def Releases (M : Measurement m μ) (x : Value) : Prop :=
  ∃ entropy y, M.function entropy x = .ok y

/-- An input that no release is ever made of has no outputs to compare. -/
def Private (near : Nearness) (close : Closeness μ) (M : Measurement m μ) : Prop :=
  M.PrivateOn M.Releases near close

end Measurement

theorem Transformation.identity_valid {caps : Capabilities} {domain : Domain}
    {t : Transformation m m} (h : identity caps domain m = .ok t) : t.Valid near := by
  obtain ⟨-, rfl⟩ := identity_eq_ok_iff.mp h
  constructor
  · intro x y hx hy
    cases hy
    exact hx
  · intro d d' x x' y y' _ _ hnear hd hy hy'
    cases hd
    cases hy
    cases hy'
    exact hnear

theorem Transformation.Valid.chain {caps : Capabilities} {outer : Transformation m' m''}
    {inner : Transformation m m'} {C : Transformation m m''} (ho : outer.Valid near)
    (hi : inner.Valid near) (hu : inner.outputDomain.unerased = true)
    (h : Transformation.chain caps outer inner = .ok C) : C.Valid near := by
  obtain ⟨-, hlink, rfl⟩ := Transformation.chain_eq_ok_iff.mp h
  constructor
  · intro x z hx hz
    obtain ⟨y, hy, hz⟩ := bind_eq_ok_iff.mp hz
    exact ho.closed (hi.closed.contains_of_link hlink hu hx hy) hz
  · intro d d'' x x' z z' hx hx' hnear hd hz hz'
    obtain ⟨d', hd, hd'⟩ := bind_eq_ok_iff.mp hd
    obtain ⟨y, hy, hz⟩ := bind_eq_ok_iff.mp hz
    obtain ⟨y', hy', hz'⟩ := bind_eq_ok_iff.mp hz'
    have hmiddle := hi.stable hx hx' hnear hd hy hy'
    exact ho.stable (hi.closed.contains_of_link hlink hu hx hy) (hi.closed.contains_of_link hlink hu hx' hy')
      hmiddle hd' hz hz'

namespace Measurement

variable {caps : Capabilities} {outer : Measurement m' μ} {inner : Transformation m m'}
  {C : Measurement m μ}

/-- The inner function draws nothing, so the release is that of what it makes of the input. -/
theorem after_function {x y : Value} (hy : inner.function x = .ok y) (entropy : Entropy) :
    (outer.after inner).function entropy x = outer.function entropy y := by
  change inner.function x >>= outer.function entropy = _
  rw [hy]
  rfl

theorem PrivateOn.chain {p : Value → Prop} (ho : outer.PrivateOn p near close)
    (hi : inner.Valid near) (hu : inner.outputDomain.unerased = true)
    (h : Measurement.chain caps outer inner = .ok C) :
    C.PrivateOn (fun x => ∃ y, inner.function x = .ok y ∧ p y) near close := by
  obtain ⟨-, hlink, rfl⟩ := chain_eq_ok_iff.mp h
  rintro d loss x x' hx hx' hnear hloss ⟨y, hy, hp⟩ ⟨y', hy', hp'⟩
  obtain ⟨d', hd, hloss⟩ := bind_eq_ok_iff.mp hloss
  have hmiddle := hi.stable hx hx' hnear hd hy hy'
  have hclose := ho (hi.closed.contains_of_link hlink hu hx hy) (hi.closed.contains_of_link hlink hu hx' hy')
    hmiddle hloss hp hp'
  rw [funext (after_function hy), funext (after_function hy')]
  exact hclose

theorem exists_of_releases {x : Value} (h : (outer.after inner).Releases x) :
    ∃ y, inner.function x = .ok y ∧ outer.Releases y := by
  obtain ⟨entropy, z, hz⟩ := h
  obtain ⟨y, hy, hz⟩ := bind_eq_ok_iff.mp hz
  exact ⟨y, hy, entropy, z, hz⟩

theorem Private.chain (ho : outer.Private near close) (hi : inner.Valid near)
    (hu : inner.outputDomain.unerased = true)
    (h : Measurement.chain caps outer inner = .ok C) : C.Private near close := by
  have hon := PrivateOn.chain ho hi hu h
  obtain ⟨-, -, rfl⟩ := chain_eq_ok_iff.mp h
  intro d loss x x' hx hx' hnear hloss hr hr'
  exact hon hx hx' hnear hloss (exists_of_releases hr) (exists_of_releases hr')

end Measurement

/-- Chaining preserves validity, at every link and so along every chain. A chained measurement keeps
    the losses of the one at its end, for the inputs that the transformation has a value for and for
    those that something is released of. -/
theorem chain_valid (near : Nearness) :
    (∀ {m m' m'' : Metric} {caps : Capabilities} {outer : Transformation m' m''}
      {inner : Transformation m m'} {C : Transformation m m''}, outer.Valid near →
      inner.Valid near → inner.outputDomain.unerased = true →
      Transformation.chain caps outer inner = .ok C → C.Valid near) ∧
    (∀ {m m' : Metric} {c : Chain m m'} {T : Transformation m m'},
      c.Every (fun t => t.Valid near ∧ t.outputDomain.unerased = true) → c.build = .ok T →
      T.Valid near) ∧
    (∀ {m m' : Metric} {μ : Measure} {close : Closeness μ} {caps : Capabilities}
      {outer : Measurement m' μ} {inner : Transformation m m'} {C : Measurement m μ},
      inner.Valid near → inner.outputDomain.unerased = true →
      Measurement.chain caps outer inner = .ok C →
      (∀ p, outer.PrivateOn p near close →
        C.PrivateOn (fun x => ∃ y, inner.function x = .ok y ∧ p y) near close) ∧
      (outer.Private near close → C.Private near close)) := by
  refine ⟨fun ho hi hu h => ho.chain hi hu h, ?_, ?_⟩
  · intro m m' c T hc hT
    refine (Chain.of_every (p := fun t => t.Valid near ∧ t.outputDomain.unerased = true)
      ?_ hc hT).1
    intro m m' m'' caps outer inner C hC ho hi
    refine ⟨ho.1.chain hi.1 hi.2 hC, ?_⟩
    obtain ⟨-, -, rfl⟩ := Transformation.chain_eq_ok_iff.mp hC
    exact ho.2
  · intro m m' μ close caps outer inner C hi hu h
    exact ⟨fun p ho => Measurement.PrivateOn.chain ho hi hu h,
      fun ho => Measurement.Private.chain ho hi hu h⟩

/-- Lists of numbers from zero to one, with either zero as the lower end, as they are. -/
def unitIdentity (negative : Bool) : Transformation .symmetric .symmetric where
  inputDomain := .vector (.bounded (.float .binary64) (unitInterval negative))
  outputDomain := .vector (.bounded (.float .binary64) (unitInterval negative))
  function := .ok
  stabilityMap := .ok
where
  unitInterval (negative : Bool) : Interval (.float .binary64) :=
    ⟨.signed negative 0 (Nat.zero_le _), .one, by cases negative <;> decide⟩

/-- Lists within a number of added or removed records, and other values when they are equal. -/
def recordsWithin : Nearness
  | .dataset .symmetric, d, .list xs, .list ys => symmetricDistance xs ys ≤ d.val
  | _, _, x, y => x = y

def constantRelease (input : Domain) : Measurement .symmetric (.maxDivergence .binary64) where
  inputDomain := input
  outputDomain := .all .bool
  function _ _ := .ok (.bool true)
  privacyMap _ := .ok Binary.zero

theorem constantRelease_privateOn (input : Domain) (p : Value → Prop) (near : Nearness) :
    (constantRelease input).PrivateOn p near fun _ release release' => release = release' :=
  fun _ _ _ _ _ _ _ _ _ _ => rfl

/-- The two intervals meet in different zeros, and the links hold. -/
theorem chain_valid_signed_zeros :
    (∃ C, Transformation.chain .all (unitIdentity false) (unitIdentity true) = .ok C ∧
      C.Valid recordsWithin) ∧
    (∃ T, (Chain.link .all (.step (unitIdentity true))
        (.link .all (.step (unitIdentity false)) (.step (unitIdentity true)))).build = .ok T ∧
      T.Valid recordsWithin) ∧
    ∃ M, Measurement.chain .all (constantRelease (unitIdentity false).inputDomain)
        (unitIdentity true) = .ok M ∧
      M.Private recordsWithin fun _ release release' => release = release' := by
  have hvalid : ∀ negative, (unitIdentity negative).Valid recordsWithin := by
    intro negative
    have hidentity : Transformation.identity .all (unitIdentity negative).inputDomain .symmetric =
        .ok (unitIdentity negative) := rfl
    exact Transformation.identity_valid hidentity
  have hlink : ∀ negative, (unitIdentity negative).outputDomain.eq
      (unitIdentity !negative).inputDomain = true := by
    intro negative
    cases negative <;> rfl
  have htwo : Transformation.chain .all (unitIdentity false) (unitIdentity true) =
      .ok ((unitIdentity false).after (unitIdentity true)) :=
    Transformation.chain_eq_ok_iff.mpr ⟨rfl, hlink true, rfl⟩
  have hthree : (Chain.link .all (.step (unitIdentity true))
      (.link .all (.step (unitIdentity false)) (.step (unitIdentity true)))).build =
      .ok ((unitIdentity true).after ((unitIdentity false).after (unitIdentity true))) :=
    Chain.build_link_eq_ok_iff.mpr ⟨_, _, rfl,
      Chain.build_link_eq_ok_iff.mpr ⟨_, _, rfl, rfl, htwo⟩,
      Transformation.chain_eq_ok_iff.mpr ⟨rfl, hlink false, rfl⟩⟩
  have hmeasured : Measurement.chain .all (constantRelease (unitIdentity false).inputDomain)
      (unitIdentity true) = .ok ((constantRelease _).after (unitIdentity true)) :=
    Measurement.chain_eq_ok_iff.mpr ⟨rfl, hlink true, rfl⟩
  have hevery : (Chain.link .all (.step (unitIdentity true))
      (.link .all (.step (unitIdentity false)) (.step (unitIdentity true)))).Every
      fun t => t.Valid recordsWithin ∧ t.outputDomain.unerased = true :=
    ⟨⟨hvalid true, rfl⟩, ⟨hvalid false, rfl⟩, hvalid true, rfl⟩
  obtain ⟨hchain, hchains, hmeasure⟩ := chain_valid recordsWithin
  exact ⟨⟨_, htwo, hchain (hvalid false) (hvalid true) rfl htwo⟩, ⟨_, hthree, hchains hevery hthree⟩,
    _, hmeasured, (hmeasure (hvalid true) rfl hmeasured).2 (constantRelease_privateOn _ _ _)⟩

/-- Passes on the list of no records, and refuses all others as not-a-number. -/
def onlyEmpty : Transformation .symmetric .symmetric where
  inputDomain := .vectorOf (.num (.int .i32))
  outputDomain := .vectorOf (.num (.int .i32))
  function x :=
    if x = .list [] then .ok x
    else .error (.failedCast (.number ⟨.float .binary64, Binary.nan⟩ (.int .i32)))
  stabilityMap _ := .ok .zero

theorem eq_of_onlyEmpty {x y : Value} (h : onlyEmpty.function x = .ok y) : y = .list [] := by
  unfold onlyEmpty at h
  dsimp only at h
  split at h
  · rename_i hx
    rw [← Except.ok.inj h, hx]
  · cases h

theorem onlyEmpty_valid : onlyEmpty.Valid recordsWithin where
  closed x y _ hy := by
    rw [eq_of_onlyEmpty hy]
    rfl
  stable d d' x x' y y' _ _ _ hd hy hy' := by
    rw [eq_of_onlyEmpty hy, eq_of_onlyEmpty hy']
    exact (le_of_eq (by decide)).trans d'.min_le

/-- A loss of nothing at a distance of one record, though of no record something is released and of
    one record nothing. -/
theorem chain_loss_unbounded_where_refused :
    onlyEmpty.Valid recordsWithin ∧
    (constantRelease onlyEmpty.outputDomain).PrivateOn (fun _ => True) recordsWithin
      (fun _ release release' => release = release') ∧
    ∃ M, Measurement.chain .all (constantRelease onlyEmpty.outputDomain) onlyEmpty = .ok M ∧
      M.privacyMap .one = .ok .zero ∧
      ¬M.PrivateOn (fun _ => True) recordsWithin fun _ release release' => release = release' := by
  have hM : Measurement.chain .all (constantRelease onlyEmpty.outputDomain) onlyEmpty =
      .ok ((constantRelease _).after onlyEmpty) :=
    Measurement.chain_eq_ok_iff.mpr ⟨rfl, rfl, rfl⟩
  refine ⟨onlyEmpty_valid, constantRelease_privateOn _ _ _, _, hM, rfl, fun h => ?_⟩
  let record : Value := .int (Integer.one : Integer .i32)
  have hnear : recordsWithin .symmetric .one (.list []) (.list [record]) :=
    Int.ofNat_le.mpr (symmetricDistance_le [] [record])
  have hsame := @h .one .zero (.list []) (.list [record]) rfl (by decide) hnear rfl trivial trivial
  cases congrFun hsame (.simulated 0)

end DifferentialPrivacy
