import DifferentialPrivacy.Proofs.Dataset.ClampStability
import DifferentialPrivacy.Proofs.Pipeline.MonotoneMap

set_option autoImplicit false

/-!
# Pipelines that never fail on their domain

Each of the library's own transformations sends every member of its input domain to a member of its
output domain, and a link is made only between domains with the same members. So no value that goes
from step to step has to be looked at, and a chain of any length has a value for each member of its
first domain. An argument that is no member is refused before any of the functions is asked.

A domain that may hold erased values is left out: such values cannot be copied, so no step that returns
its input is made over them.
-/
namespace DifferentialPrivacy

variable {m m' m'' : Metric} {caps : Capabilities}

namespace Domain

mutual

/-- Only domains without an erased part equal a domain without one. -/
theorem unerased_of_eq : (d e : Domain) → d.eq e = true → d.unerased = true → e.unerased = true
  | all a, e, h, _ => by
    rw [of_all_eq h]
    rfl
  | bounded t i, e, h, _ => by
    obtain ⟨j, rfl, -⟩ := of_bounded_eq h
    rfl
  | vector d, e, h, hd => by
    obtain ⟨e', rfl, hde⟩ := of_vector_eq h
    unfold unerased at hd ⊢
    exact unerased_of_eq d e' hde hd
  | sized d n, e, h, hd => by
    obtain ⟨e', rfl, hde⟩ := of_sized_eq h
    unfold unerased at hd ⊢
    exact unerased_of_eq d e' hde hd
  | map k d, e, h, hd => by
    obtain ⟨k', d', rfl, hk, hde⟩ := of_map_eq h
    unfold unerased at hd ⊢
    obtain ⟨hku, hdu⟩ := Bool.and_eq_true_iff.mp hd
    exact Bool.and_eq_true_iff.mpr ⟨unerased_of_eq k k' hk hku, unerased_of_eq d d' hde hdu⟩
  | product _ ds, e, h, hd => by
    obtain ⟨es, rfl, hds⟩ := of_product_eq h
    unfold unerased at hd ⊢
    exact unerasedParts_of_eqParts ds es hds hd
  | erased d, e, _, hd => by
    unfold unerased at hd
    cases hd

theorem unerasedParts_of_eqParts : (ds es : List Domain) → eqParts ds es = true →
    unerasedParts ds = true → unerasedParts es = true
  | [], [], _, _ => rfl
  | [], e :: es, h, _ => by
    unfold eqParts at h
    cases h
  | d :: ds, es, h, hd => by
    obtain ⟨e, es', rfl, hde, hds⟩ := of_eqParts_cons h
    unfold unerasedParts at hd ⊢
    obtain ⟨hdu, hdsu⟩ := Bool.and_eq_true_iff.mp hd
    exact Bool.and_eq_true_iff.mpr
      ⟨unerased_of_eq d e hde hdu, unerasedParts_of_eqParts ds es' hds hdsu⟩

end

theorem exists_list_of_vector_contains {d : Domain} {x : Value}
    (h : (vector d).contains x = true) : ∃ xs, x = .list xs ∧ ∀ y ∈ xs, d.contains y = true := by
  cases x with
  | list xs =>
    unfold contains at h
    exact ⟨xs, rfl, List.all_eq_true.mp h⟩
  | _ =>
    simp only [contains] at h
    cases h

theorem exists_num_of_all_contains {t : NumType} {x : Value}
    (h : (all (.num t)).contains x = true) : ∃ n, x = .num t n ∧ t.isNull n = false := by
  unfold contains at h
  cases x with
  | num s n =>
    obtain ⟨hs, hn⟩ := Bool.and_eq_true_iff.mp h
    obtain rfl := of_decide_eq_true hs
    exact ⟨n, rfl, (Bool.not_eq_true' _).mp hn⟩
  | _ => cases h

end Domain

/-! ### Steps -/

namespace Transformation

/-- Every member of the input domain has a value, and that is a member of the output domain. -/
def Total (T : Transformation m m') : Prop :=
  ∀ x, T.inputDomain.contains x = true →
    ∃ y, T.function x = .ok y ∧ T.outputDomain.contains y = true

theorem Total.after {outer : Transformation m' m''} {inner : Transformation m m'}
    (ho : outer.Total) (hi : inner.Total) (hu : inner.outputDomain.unerased = true)
    (hlink : inner.outputDomain.eq outer.inputDomain = true) : (outer.after inner).Total := by
  intro x hx
  obtain ⟨y, hy, hmiddle⟩ := hi x hx
  rw [Domain.contains_eq_of_eq _ _ hu hlink] at hmiddle
  obtain ⟨z, hz, hout⟩ := ho y hmiddle
  exact ⟨z, bind_eq_ok_iff.mpr ⟨y, hy, hz⟩, hout⟩

theorem identity_total {domain : Domain} {T : Transformation m m}
    (h : identity caps domain m = .ok T) : T.Total := by
  obtain ⟨-, rfl⟩ := identity_eq_ok_iff.mp h
  exact fun x hx => ⟨x, rfl, hx⟩

theorem clamp_total {t : NumType} {lower upper : t.Carrier}
    {T : Transformation .symmetric .symmetric} (h : clamp caps t lower upper = .ok T) :
    T.Total := by
  obtain ⟨i, -, -, rfl⟩ := of_clamp_eq_ok h
  intro x hx
  obtain ⟨xs, rfl, hxs⟩ := Domain.exists_list_of_vector_contains hx
  refine ⟨_, rfl, ?_⟩
  change (Domain.vector (.bounded t i)).contains (.list (xs.map i.nearestValue)) = true
  unfold Domain.contains
  rw [List.all_eq_true, List.forall_mem_map]
  intro y hy
  obtain ⟨n, rfl, hn⟩ := Domain.exists_num_of_all_contains (hxs y hy)
  rw [Interval.nearestValue_num]
  unfold Domain.contains Interval.containsValue
  exact (dif_pos rfl).trans (Interval.contains_nearest hn)

theorem count_total {record : Atom} {output : NumType}
    {T : Transformation .symmetric (.absolute output)} (h : count caps record output = .ok T) :
    T.Total := by
  obtain ⟨-, rfl⟩ := count_eq_ok_iff.mp h
  exact fun x _ => ⟨_, rfl, contains_count output _⟩

theorem countBy_total {key : Atom} {output : NumType} {T : Transformation .symmetric (.l1 output)}
    (h : countBy caps key output = .ok T) : T.Total := by
  obtain ⟨-, rfl⟩ := countBy_eq_ok_iff.mp h
  intro x hx
  obtain ⟨xs, rfl, -⟩ := Domain.exists_list_of_vector_contains hx
  exact ⟨_, rfl, contains_counts hx⟩

section Sums

variable {method : SumMethod} {size : Nat} {t : IntType} {lower upper : Integer t}
  {T : Transformation .symmetric (.absolute (.int t))}

theorem boundedSum_total (h : boundedSum method caps t lower upper = .ok T) : T.Total := by
  obtain ⟨-, i, s, -, -, rfl⟩ := SumStability.of_boundedSum_eq_ok h
  exact fun x _ => ⟨_, rfl, Domain.contains_int _⟩

theorem sizedBoundedSum_total (h : sizedBoundedSum method caps size t lower upper = .ok T) :
    T.Total := by
  obtain ⟨-, i, r, -, -, rfl⟩ := SumStability.of_sizedBoundedSum_eq_ok h
  exact fun x _ => ⟨_, rfl, Domain.contains_int _⟩

end Sums

/-- The steps in front of a chain decide whether it holds erased values; the links keep them out of
    all later domains. -/
theorem BuiltIn.total {T : Transformation m m'} (h : T.BuiltIn)
    (hu : T.inputDomain.unerased = true) : T.Total ∧ T.outputDomain.unerased = true := by
  induction h with
  | identity h =>
    refine ⟨identity_total h, ?_⟩
    obtain ⟨-, rfl⟩ := identity_eq_ok_iff.mp h
    exact hu
  | clamp h =>
    refine ⟨clamp_total h, ?_⟩
    obtain ⟨i, -, -, rfl⟩ := of_clamp_eq_ok h
    rfl
  | count h =>
    refine ⟨count_total h, ?_⟩
    obtain ⟨-, rfl⟩ := count_eq_ok_iff.mp h
    rfl
  | countBy h =>
    refine ⟨countBy_total h, ?_⟩
    obtain ⟨-, rfl⟩ := countBy_eq_ok_iff.mp h
    rfl
  | boundedSum h =>
    refine ⟨boundedSum_total h, ?_⟩
    obtain ⟨-, i, s, -, -, rfl⟩ := SumStability.of_boundedSum_eq_ok h
    rfl
  | sizedBoundedSum h =>
    refine ⟨sizedBoundedSum_total h, ?_⟩
    obtain ⟨-, i, r, -, -, rfl⟩ := SumStability.of_sizedBoundedSum_eq_ok h
    rfl
  | chain ho hi h iho ihi =>
    obtain ⟨-, hlink, rfl⟩ := chain_eq_ok_iff.mp h
    obtain ⟨hinner, hmiddle⟩ := ihi hu
    obtain ⟨houter, hout⟩ := iho (Domain.unerased_of_eq _ _ hlink hmiddle)
    exact ⟨houter.after hinner hmiddle hlink, hout⟩

end Transformation

/-! ### Arguments outside the domain -/

theorem invokeBetween_of_not_contains {input : Domain} {x : Value}
    (h : input.contains x = false) (output : Domain) (function : Value → Result Value) :
    invokeBetween input output function x = .error (.domainMismatch (.argument input)) := by
  unfold invokeBetween
  rw [h]
  exact if_neg Bool.false_ne_true

namespace Chain

/-- The same chain with another function in each of its steps. -/
def withFunctions (g : ∀ {m m' : Metric}, Transformation m m' → Value → Result Value) :
    {m m' : Metric} → Chain m m' → Chain m m'
  | _, _, step t => step { t with function := g t }
  | _, _, link caps outer inner => link caps (outer.withFunctions g) (inner.withFunctions g)

/-- The functions play no part in putting a chain together. -/
theorem build_withFunctions (g : ∀ {m m' : Metric}, Transformation m m' → Value → Result Value)
    {c : Chain m m'} {T : Transformation m m'} (h : c.build = .ok T) :
    ∃ T', (c.withFunctions g).build = .ok T' ∧ T'.inputDomain = T.inputDomain ∧
      T'.outputDomain = T.outputDomain := by
  induction c with
  | step t =>
    cases h
    exact ⟨_, rfl, rfl, rfl⟩
  | link caps outer inner iho ihi =>
    obtain ⟨U, V, hU, hV, hUV⟩ := build_link_eq_ok_iff.mp h
    obtain ⟨hcaps, hlink, rfl⟩ := Transformation.chain_eq_ok_iff.mp hUV
    obtain ⟨U', hU', hUin, hUout⟩ := iho hU
    obtain ⟨V', hV', hVin, hVout⟩ := ihi hV
    have hchain : Transformation.chain caps U' V' = .ok (U'.after V') := by
      refine Transformation.chain_eq_ok_iff.mpr ⟨hcaps, ?_, rfl⟩
      rw [hVout, hUin]
      exact hlink
    exact ⟨_, build_link_eq_ok_iff.mpr ⟨U', V', hU', hV', hchain⟩, hVin, hUout⟩

end Chain

/-- A chain of the library's own steps returns a member of its output domain for every member of its
    input domain, so no run of it ends in a failure of the function. For any other argument it reports
    the mismatch, whatever the functions of its steps are: none of them is asked. -/
theorem pipeline_total {c : Chain m m'} (hc : c.Every fun t => t.BuiltIn) {T : Transformation m m'}
    (hT : c.build = .ok T) (hu : T.inputDomain.unerased = true) :
    (∀ x, T.inputDomain.contains x = true →
      ∃ y, T.invoke x = .ok y ∧ T.outputDomain.contains y = true) ∧
    (∀ x fault, T.invoke x ≠ .error (.failedFunction fault)) ∧
    ∀ x, T.inputDomain.contains x = false →
      T.invoke x = .error (.domainMismatch (.argument T.inputDomain)) ∧
      ∀ g : ∀ {m m' : Metric}, Transformation m m' → Value → Result Value,
        ∃ T', (c.withFunctions g).build = .ok T' ∧
          T'.invoke x = .error (.domainMismatch (.argument T.inputDomain)) := by
  have hbuilt : T.BuiltIn :=
    Chain.of_every (p := fun t => t.BuiltIn) (fun h ho hi => .chain ho hi h) hc hT
  have hvalue : ∀ x, T.inputDomain.contains x = true →
      ∃ y, T.invoke x = .ok y ∧ T.outputDomain.contains y = true := by
    intro x hx
    obtain ⟨y, hy, hout⟩ := (hbuilt.total hu).1 x hx
    exact ⟨y, invokeBetween_eq_ok hx hy hout, hout⟩
  have hrefused : ∀ x, T.inputDomain.contains x = false →
      T.invoke x = .error (.domainMismatch (.argument T.inputDomain)) :=
    fun x hx => invokeBetween_of_not_contains hx _ _
  refine ⟨hvalue, ?_, fun x hx => ⟨hrefused x hx, ?_⟩⟩
  · intro x fault hfault
    cases hx : T.inputDomain.contains x with
    | true =>
      obtain ⟨y, hy, -⟩ := hvalue x hx
      rw [hy] at hfault
      cases hfault
    | false =>
      rw [hrefused x hx] at hfault
      cases hfault
  · intro g
    obtain ⟨T', hT', hin, -⟩ := c.build_withFunctions g hT
    refine ⟨T', hT', ?_⟩
    rw [← hin] at hx ⊢
    exact invokeBetween_of_not_contains hx _ _

/-- The lower end of the interval is minus zero in one step and zero in the next. Infinity comes out
    as one; not-a-number gets past neither step. -/
theorem pipeline_total_zeros : ∃ (c : Chain .symmetric .symmetric)
    (T : Transformation .symmetric .symmetric),
    (c.Every fun t => t.BuiltIn) ∧ c.build = .ok T ∧ T.inputDomain.unerased = true ∧
    T.inputDomain.contains (.list [.float (.infinity : Binary .binary64)]) = true ∧
    (∃ y, T.invoke (.list [.float (.infinity : Binary .binary64)]) = .ok y ∧
      T.outputDomain.contains y = true) ∧
    T.inputDomain.contains (.list [.float (.nan : Binary .binary64)]) = false ∧
    T.invoke (.list [.float (.nan : Binary .binary64)]) =
      .error (.domainMismatch (.argument (.vectorOf (.num (.float .binary64))))) := by
  have hclamp : Transformation.clamp .all (.float .binary64) (-Binary.zero) Binary.one = .ok _ := rfl
  have hsame : Transformation.identity .all (.vector (.bounded (.float .binary64)
    ⟨Binary.zero, Binary.one, rfl⟩)) .symmetric = .ok _ := rfl
  have hevery : ∀ {T U : Transformation .symmetric .symmetric}, T.BuiltIn → U.BuiltIn →
      (Chain.link .all (.step T) (.step U)).Every fun t => t.BuiltIn := fun hT hU => ⟨hT, hU⟩
  have hbuilt := hevery (.identity hsame) (.clamp hclamp)
  obtain ⟨hvalue, -, hrefused⟩ := pipeline_total hbuilt rfl rfl
  exact ⟨_, _, hbuilt, rfl, rfl, rfl, hvalue _ rfl, rfl, (hrefused _ rfl).1⟩

end DifferentialPrivacy
