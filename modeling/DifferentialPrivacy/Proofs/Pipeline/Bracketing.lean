import DifferentialPrivacy.Proofs.Accounting.ComposedRelease
import DifferentialPrivacy.Proofs.Pipeline.Validity

set_option autoImplicit false

/-!
# Chaining is associative

Two ways to bracket the same steps check the same links, in different orders, and build the same
composite. So they agree: they build one step, or fail with one kind of error. The identity is the
unit on either side, and a chain of any length is determined by its steps.
-/
namespace DifferentialPrivacy

variable {m m' m'' : Metric} {μ : Measure} {caps : Capabilities}

/-! ### Two links -/

/-- The composite of two steps, behind the check of the link between them. -/
def linked {α : Type} (caps : Capabilities) (expected found : Domain) (composite : α) :
    Result α := do
  caps.require [.contrib]
  checkLink intermediateDomain expected found
  return composite

theorem checkLink_eq_or (role : String) (expected found : Domain) :
    checkLink role expected found = .ok () ∨
      ∃ fault, checkLink role expected found = .error (.domainMismatch fault) := by
  unfold checkLink
  split
  · exact Or.inl rfl
  · exact Or.inr ⟨_, rfl⟩

theorem linked_bind {α β : Type} {expected found : Domain} {a : α} (f : α → Result β) :
    linked caps expected found a >>= f = (do
      caps.require [.contrib]
      checkLink intermediateDomain expected found
      f a) := by
  unfold linked
  simp only [bind_assoc, pure_bind]

/-- The order of two links makes no difference to what they give in the end. -/
theorem linked_bind_agree {α β γ : Type} {a : α} {b : β} {c : γ} {f : α → Result γ}
    {g : β → Result γ} {expected found expected' found' : Domain}
    (hf : f a = linked caps expected' found' c) (hg : g b = linked caps expected found c) :
    Agree (linked caps expected found a >>= f) (linked caps expected' found' b >>= g) := by
  rw [linked_bind, linked_bind, hf, hg]
  unfold linked
  cases caps.require [.contrib] with
  | error e => exact rfl
  | ok u =>
    obtain hlink | ⟨fault, hlink⟩ := checkLink_eq_or intermediateDomain expected found <;>
      obtain hlink' | ⟨fault', hlink'⟩ := checkLink_eq_or intermediateDomain expected' found' <;>
      rw [hlink, hlink'] <;> exact rfl

namespace Transformation

theorem after_after {m₀ m₁ m₂ m₃ : Metric} (t₃ : Transformation m₂ m₃) (t₂ : Transformation m₁ m₂)
    (t₁ : Transformation m₀ m₁) : t₃.after (t₂.after t₁) = (t₃.after t₂).after t₁ := by
  unfold after
  simp only [bind_assoc]

/-- The two transformations take the same values to the same values, and their maps are the same. -/
def Alike (t u : Transformation m m') : Prop :=
  (∀ x, Agree (t.invoke x) (u.invoke x)) ∧ ∀ d, t.map d = u.map d

end Transformation

namespace Measurement

theorem after_after (M : Measurement m'' μ) (t₂ : Transformation m' m'')
    (t₁ : Transformation m m') : M.after (t₂.after t₁) = (M.after t₂).after t₁ := by
  unfold after Transformation.after
  simp only [bind_assoc]

theorem andThen_after (p : Postprocessor) (M : Measurement m' μ) (t : Transformation m m') :
    (M.after t).andThen p = (M.andThen p).after t := by
  unfold after andThen
  simp only [bind_assoc]

end Measurement

/-! ### The identity -/

theorem agree_invokeBetween {d d' e e' : Domain} (hd : ∀ x, d.contains x = d'.contains x)
    (he : ∀ y, e.contains y = e'.contains y) (f : Value → Result Value) (x : Value) :
    Agree (invokeBetween d e f x) (invokeBetween d' e' f x) := by
  unfold invokeBetween
  rw [hd x]
  split
  · cases f x with
    | error err => exact rfl
    | ok y =>
      change Agree (if e.contains y then _ else _) (if e'.contains y then _ else _)
      rw [he y]
      split <;> exact rfl
  · exact rfl

namespace Transformation

theorem after_unit (t : Transformation m m') (domain : Domain) :
    t.after (unit domain m) = { t with inputDomain := domain } := rfl

theorem unit_after (t : Transformation m m') (domain : Domain) :
    (unit domain m').after t = { t with outputDomain := domain } := by
  have hfunction : (fun x => t.function x >>= .ok) = t.function := funext fun x => bind_pure _
  have hmap : (fun d => t.stabilityMap d >>= .ok) = t.stabilityMap := funext fun d => bind_pure _
  unfold after unit
  rw [hfunction, hmap]

theorem identity_bind_chain (t : Transformation m m') (h : .contrib ∈ caps) :
    (identity caps t.inputDomain m >>= chain caps t) = .ok t :=
  have hcaps := require_contrib_eq_ok_iff.mpr h
  bind_eq_ok_iff.mpr ⟨_, identity_eq_ok_iff.mpr ⟨hcaps, rfl⟩,
    chain_eq_ok_iff.mpr ⟨hcaps, t.inputDomain.eq_self, (after_unit t _).symm⟩⟩

theorem identity_bind_chain_after (t : Transformation m m') (h : .contrib ∈ caps) :
    (identity caps t.outputDomain m' >>= fun I => chain caps I t) = .ok t :=
  have hcaps := require_contrib_eq_ok_iff.mpr h
  bind_eq_ok_iff.mpr ⟨_, identity_eq_ok_iff.mpr ⟨hcaps, rfl⟩,
    chain_eq_ok_iff.mpr ⟨hcaps, t.outputDomain.eq_self, (unit_after t _).symm⟩⟩

variable {t C : Transformation m m'} {domain : Domain}

theorem chain_identity_alike {I : Transformation m m} (hI : identity caps domain m = .ok I)
    (hu : domain.unerased = true) (hC : chain caps t I = .ok C) : C.Alike t := by
  obtain ⟨-, rfl⟩ := identity_eq_ok_iff.mp hI
  obtain ⟨-, hlink, rfl⟩ := chain_eq_ok_iff.mp hC
  have hmembers := Domain.contains_eq_of_eq _ _ hu hlink
  exact ⟨agree_invokeBetween hmembers (fun _ => rfl) t.function, fun _ => rfl⟩

theorem identity_chain_alike {I : Transformation m' m'} (hI : identity caps domain m' = .ok I)
    (hu : domain.unerased = true) (hC : chain caps I t = .ok C) : C.Alike t := by
  obtain ⟨-, rfl⟩ := identity_eq_ok_iff.mp hI
  obtain ⟨-, hlink, rfl⟩ := chain_eq_ok_iff.mp hC
  have hmembers := Domain.contains_eq_of_eq _ _ hu (Domain.eq_symm hlink)
  rw [unit_after]
  exact ⟨agree_invokeBetween (fun _ => rfl) hmembers t.function, fun _ => rfl⟩

end Transformation

/-! ### Chains of any length -/

/-- One or more transformations, the one that runs first at the head. -/
inductive Steps : Metric → Metric → Type
  | last {m m' : Metric} (t : Transformation m m') : Steps m m'
  | next {m m' m'' : Metric} (t : Transformation m m') (rest : Steps m' m'') : Steps m m''

namespace Steps

def append {m m' m'' : Metric} : Steps m m' → Steps m' m'' → Steps m m''
  | last t, s => next t s
  | next t rest, s => next t (rest.append s)

def composite {m m' : Metric} : Steps m m' → Transformation m m'
  | last t => t
  | next t rest => rest.composite.after t

/-- Every step enters the domain that the one before it leaves. -/
def Linked {m m' : Metric} : Steps m m' → Prop
  | last _ => True
  | next t rest => t.outputDomain.eq rest.composite.inputDomain = true ∧ rest.Linked

theorem composite_append (s : Steps m m') (s' : Steps m' m'') :
    (s.append s').composite = s'.composite.after s.composite := by
  induction s with
  | last t => rfl
  | next t rest ih =>
    change (rest.append s').composite.after t = s'.composite.after (rest.composite.after t)
    rw [ih, Transformation.after_after]

theorem linked_append_iff (s : Steps m m') (s' : Steps m' m'') :
    (s.append s').Linked ↔ s.Linked ∧
      s.composite.outputDomain.eq s'.composite.inputDomain = true ∧ s'.Linked := by
  induction s with
  | last t => exact ⟨fun h => ⟨trivial, h⟩, And.right⟩
  | next t rest ih =>
    change t.outputDomain.eq (rest.append s').composite.inputDomain = true ∧ _ ↔
      (t.outputDomain.eq rest.composite.inputDomain = true ∧ rest.Linked) ∧
        rest.composite.outputDomain.eq s'.composite.inputDomain = true ∧ s'.Linked
    rw [ih, composite_append, and_assoc]
    rfl

end Steps

namespace Chain

def steps {m m' : Metric} : Chain m m' → Steps m m'
  | step t => .last t
  | link _ outer inner => inner.steps.append outer.steps

def Enabled {m m' : Metric} : Chain m m' → Prop
  | step _ => True
  | link caps outer inner => .contrib ∈ caps ∧ outer.Enabled ∧ inner.Enabled

/-- An enabled chain builds the composite of its steps, or meets a link that does not hold. -/
theorem build_cases {c : Chain m m'} (h : c.Enabled) :
    (c.steps.Linked ∧ c.build = .ok c.steps.composite) ∨
      (¬c.steps.Linked ∧ ∃ fault, c.build = .error (.domainMismatch fault)) := by
  induction c with
  | step t => exact Or.inl ⟨trivial, rfl⟩
  | link caps outer inner iho ihi =>
    obtain ⟨hcaps, ho, hi⟩ := h
    change ((inner.steps.append outer.steps).Linked ∧
        (outer.build >>= fun T => inner.build >>= fun U => Transformation.chain caps T U) =
          .ok (inner.steps.append outer.steps).composite) ∨
      (¬(inner.steps.append outer.steps).Linked ∧ ∃ fault,
        (outer.build >>= fun T => inner.build >>= fun U => Transformation.chain caps T U) =
          .error (.domainMismatch fault))
    rw [Steps.linked_append_iff, Steps.composite_append]
    obtain ⟨holinked, ho⟩ | ⟨hounlinked, fault, ho⟩ := iho ho
    · obtain ⟨hilinked, hi⟩ | ⟨hiunlinked, fault, hi⟩ := ihi hi
      · rw [ho, hi]
        obtain hcheck | ⟨fault, hcheck⟩ := checkLink_eq_or intermediateDomain
          outer.steps.composite.inputDomain inner.steps.composite.outputDomain
        · have hlink := checkLink_eq_ok_iff.mp hcheck
          refine Or.inl ⟨⟨hilinked, hlink, holinked⟩, ?_⟩
          exact Transformation.chain_eq_ok_iff.mpr ⟨require_contrib_eq_ok_iff.mpr hcaps, hlink, rfl⟩
        · refine Or.inr ⟨fun h => ?_, fault, ?_⟩
          · rw [checkLink_eq_ok_iff.mpr h.2.1] at hcheck
            cases hcheck
          · change linked caps _ _ _ = _
            unfold linked
            rw [require_contrib_eq_ok_iff.mpr hcaps, hcheck]
            rfl
      · rw [ho, hi]
        exact Or.inr ⟨fun h => hiunlinked h.1, fault, rfl⟩
    · rw [ho]
      exact Or.inr ⟨fun h => hounlinked h.2.2, fault, rfl⟩

/-- Chains of the same steps agree, however they are put together. -/
theorem build_agree_of_steps_eq {c c' : Chain m m'} (hc : c.Enabled) (hc' : c'.Enabled)
    (h : c.steps = c'.steps) : Agree c.build c'.build := by
  obtain ⟨hlinked, hT⟩ | ⟨hunlinked, fault, hT⟩ := build_cases hc <;>
    obtain ⟨hlinked', hT'⟩ | ⟨hunlinked', fault', hT'⟩ := build_cases hc' <;>
    rw [hT, hT']
  · rw [h]
    exact Agree.refl _
  · exact absurd (h ▸ hlinked) hunlinked'
  · exact absurd (h ▸ hlinked') hunlinked
  · exact rfl

end Chain

/-- Chaining is associative in each of its forms, with the identity as its unit on either side of a
    transformation. An identity over another spelling of the domain, where a link accepts it,
    leaves what the transformation does the same. -/
theorem chain_associative_unital (caps : Capabilities) (m₀ m₁ m₂ m₃ : Metric) (μ : Measure) :
    (∀ (t₃ : Transformation m₂ m₃) (t₂ : Transformation m₁ m₂) (t₁ : Transformation m₀ m₁),
      Agree (Transformation.chain caps t₂ t₁ >>= Transformation.chain caps t₃)
        (Transformation.chain caps t₃ t₂ >>= fun t => Transformation.chain caps t t₁)) ∧
    (∀ (M : Measurement m₂ μ) (t₂ : Transformation m₁ m₂) (t₁ : Transformation m₀ m₁),
      Agree (Transformation.chain caps t₂ t₁ >>= Measurement.chain caps M)
        (Measurement.chain caps M t₂ >>= fun N => Measurement.chain caps N t₁)) ∧
    (∀ (p : Postprocessor) (M : Measurement m₁ μ) (t : Transformation m₀ m₁),
      Agree (Measurement.chain caps M t >>= Measurement.postprocess caps p)
        (Measurement.postprocess caps p M >>= fun N => Measurement.chain caps N t)) ∧
    (∀ t : Transformation m₀ m₁, .contrib ∈ caps →
      (Transformation.identity caps t.inputDomain m₀ >>= Transformation.chain caps t) = .ok t ∧
      (Transformation.identity caps t.outputDomain m₁ >>= fun I =>
        Transformation.chain caps I t) = .ok t) ∧
    ∀ {t C : Transformation m₀ m₁} {domain : Domain}, domain.unerased = true →
      (∀ {I : Transformation m₀ m₀}, Transformation.identity caps domain m₀ = .ok I →
        Transformation.chain caps t I = .ok C → C.Alike t) ∧
      ∀ {I : Transformation m₁ m₁}, Transformation.identity caps domain m₁ = .ok I →
        Transformation.chain caps I t = .ok C → C.Alike t := by
  refine ⟨?_, ?_, ?_, ?_, ?_⟩
  · intro t₃ t₂ t₁
    exact linked_bind_agree rfl (congrArg (linked caps _ _) (t₃.after_after t₂ t₁).symm)
  · intro M t₂ t₁
    exact linked_bind_agree rfl (congrArg (linked caps _ _) (M.after_after t₂ t₁).symm)
  · intro p M t
    exact linked_bind_agree rfl (congrArg (linked caps _ _) (Measurement.andThen_after p M t).symm)
  · intro t h
    exact ⟨t.identity_bind_chain h, t.identity_bind_chain_after h⟩
  · intro t C domain hu
    exact ⟨fun hI hC => Transformation.chain_identity_alike hI hu hC,
      fun hI hC => Transformation.identity_chain_alike hI hu hC⟩

/-- Lists of numbers from zero to one, with either zero as the lower end, backwards. -/
def reversal (negative : Bool) : Transformation .symmetric .symmetric where
  inputDomain := (unitIdentity negative).inputDomain
  outputDomain := (unitIdentity negative).inputDomain
  function
    | .list xs => .ok (.list xs.reverse)
    | v => .ok v
  stabilityMap := .ok

/-- The domain of the identity starts at the other zero, and the links hold. -/
theorem chain_associative_unital_signed_zeros :
    (Transformation.identity .all (reversal false).inputDomain .symmetric >>=
      Transformation.chain .all (reversal false)) = .ok (reversal false) ∧
    (∃ C, Transformation.chain .all (reversal false) (unitIdentity true) = .ok C ∧
      C.Alike (reversal false)) ∧
    ∃ C, Transformation.chain .all (unitIdentity true) (reversal false) = .ok C ∧
      C.Alike (reversal false) := by
  obtain ⟨-, -, -, hunit, halike⟩ := chain_associative_unital .all .symmetric .symmetric .symmetric
    .symmetric (.maxDivergence .binary64)
  have hI : Transformation.identity .all (unitIdentity true).inputDomain .symmetric =
      .ok (unitIdentity true) := rfl
  have hbefore : Transformation.chain .all (reversal false) (unitIdentity true) =
      .ok ((reversal false).after (unitIdentity true)) :=
    Transformation.chain_eq_ok_iff.mpr ⟨rfl, rfl, rfl⟩
  have hafter : Transformation.chain .all (unitIdentity true) (reversal false) =
      .ok ((unitIdentity true).after (reversal false)) :=
    Transformation.chain_eq_ok_iff.mpr ⟨rfl, rfl, rfl⟩
  exact ⟨(hunit (reversal false) rfl).1, ⟨_, hbefore, (halike rfl).1 hI hbefore⟩,
    _, hafter, (halike rfl).2 hI hafter⟩

end DifferentialPrivacy
