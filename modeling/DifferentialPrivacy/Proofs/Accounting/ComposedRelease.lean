import DifferentialPrivacy.Accounting.Composition
import DifferentialPrivacy.Proofs.Domain.Equivalence
import DifferentialPrivacy.Proofs.Pipeline.ChainedMap
import Mathlib.Data.List.Forall2

set_option autoImplicit false

/-!
# Basic composition as a product of its parts

A composition is built of any measurements whose input domains are equal, in any order. It releases
what its parts release one by one, and its loss is composed of their losses. Where a part has none,
the composition fails as the first such part does.
-/
namespace DifferentialPrivacy

/-! ### Passes that stop at the first failure -/

section Pass

variable {ε α β : Type} {f : α → Except ε β}

theorem mapM_eq_ok_iff {xs : List α} {ys : List β} :
    xs.mapM f = .ok ys ↔ List.Forall₂ (fun x y => f x = .ok y) xs ys := by
  induction xs generalizing ys with
  | nil =>
    rw [List.forall₂_nil_left_iff, List.mapM_nil]
    exact ⟨fun h => (Except.ok.inj h).symm, fun h => congrArg _ h.symm⟩
  | cons x xs ih =>
    rw [List.mapM_cons, bind_eq_ok_iff, List.forall₂_cons_left_iff]
    constructor
    · rintro ⟨y, hy, h⟩
      obtain ⟨ys', hys, h⟩ := bind_eq_ok_iff.mp h
      exact ⟨y, ys', hy, ih.mp hys, (Except.ok.inj h).symm⟩
    · rintro ⟨y, ys', hy, hys, rfl⟩
      exact ⟨y, hy, bind_eq_ok_iff.mpr ⟨ys', ih.mpr hys, rfl⟩⟩

/-- The first element of a list on which `f` fails, fails with `e`. -/
def FailsFirst (f : α → Except ε β) (xs : List α) (e : ε) : Prop :=
  ∃ before x after, xs = before ++ x :: after ∧ (∀ a ∈ before, ∃ b, f a = .ok b) ∧ f x = .error e

theorem not_failsFirst_nil (f : α → Except ε β) (e : ε) : ¬FailsFirst f [] e := by
  rintro ⟨before, x, after, h, -⟩
  simp at h

theorem failsFirst_cons_iff {x : α} {xs : List α} {e : ε} :
    FailsFirst f (x :: xs) e ↔ f x = .error e ∨ (∃ y, f x = .ok y) ∧ FailsFirst f xs e := by
  constructor
  · rintro ⟨before, x', after, h, hbefore, hx'⟩
    cases before with
    | nil =>
      obtain ⟨rfl, -⟩ := List.cons.inj h
      exact Or.inl hx'
    | cons a before =>
      obtain ⟨rfl, rfl⟩ := List.cons.inj h
      exact Or.inr ⟨hbefore x List.mem_cons_self, before, x', after, rfl,
        fun a ha => hbefore a (List.mem_cons_of_mem x ha), hx'⟩
  · rintro (hx | ⟨hx, before, x', after, rfl, hbefore, hx'⟩)
    · exact ⟨[], x, xs, rfl, fun a ha => absurd ha List.not_mem_nil, hx⟩
    · exact ⟨x :: before, x', after, rfl, List.forall_mem_cons.mpr ⟨hx, hbefore⟩, hx'⟩

theorem bind_eq_error_iff {x : Except ε α} {e : ε} :
    x >>= f = .error e ↔ x = .error e ∨ ∃ a, x = .ok a ∧ f a = .error e := by
  cases x with
  | error e' =>
    change Except.error e' = Except.error e ↔ _
    simp
  | ok a =>
    change f a = Except.error e ↔ _
    simp

theorem mapM_eq_error_iff {xs : List α} {e : ε} : xs.mapM f = .error e ↔ FailsFirst f xs e := by
  induction xs with
  | nil => exact ⟨fun h => (by cases h), fun h => absurd h (not_failsFirst_nil f e)⟩
  | cons x xs ih =>
    rw [List.mapM_cons, bind_eq_error_iff, failsFirst_cons_iff]
    apply or_congr_right
    constructor
    · rintro ⟨y, hy, h⟩
      rcases bind_eq_error_iff.mp h with h | ⟨ys, -, h⟩
      · exact ⟨⟨y, hy⟩, ih.mp h⟩
      · cases h
    · rintro ⟨⟨y, hy⟩, h⟩
      exact ⟨y, hy, bind_eq_error_iff.mpr (Or.inl (ih.mpr h))⟩

theorem forall₂_and_iff {p q : α → β → Prop} {xs : List α} {ys : List β} :
    List.Forall₂ (fun x y => p x y ∧ q x y) xs ys ↔
      List.Forall₂ p xs ys ∧ List.Forall₂ q xs ys :=
  ⟨fun h => ⟨h.imp fun _ _ => And.left, h.imp fun _ _ => And.right⟩,
    fun ⟨hp, hq⟩ => List.Forall₂.mp (fun _ _ => And.intro) hp hq⟩

theorem exists_forall₂_iff {p : α → β → Prop} {xs : List α} :
    (∃ ys, List.Forall₂ p xs ys) ↔ ∀ x ∈ xs, ∃ y, p x y := by
  induction xs with
  | nil => exact ⟨fun _ x hx => absurd hx List.not_mem_nil, fun _ => ⟨[], .nil⟩⟩
  | cons x xs ih =>
    rw [List.forall_mem_cons, ← ih]
    constructor
    · rintro ⟨_, hy | ⟨hy, hys⟩⟩
      exact ⟨⟨_, hy⟩, _, hys⟩
    · rintro ⟨⟨y, hy⟩, ys, hys⟩
      exact ⟨y :: ys, .cons hy hys⟩

end Pass

theorem require_contrib_eq_ok_iff {caps : Capabilities} :
    caps.require [.contrib] = .ok () ↔ .contrib ∈ caps := by
  have hmissing : caps.missing? [.contrib] = if !caps.contrib then some .contrib else none :=
    List.find?_singleton
  change _ ↔ caps.contrib = true
  unfold Capabilities.require
  rw [hmissing]
  cases caps.contrib <;> simp

theorem containsEach_iff {ds : List Domain} {ys : List Value} :
    Domain.containsEach ds ys = true ↔ List.Forall₂ (fun d y => d.contains y = true) ds ys := by
  induction ds generalizing ys with
  | nil => cases ys <;> simp [Domain.containsEach]
  | cons d ds ih => cases ys <;> simp [Domain.containsEach, ih]

namespace Measurement

variable {m : Metric} {μ : Measure} {caps : Capabilities} {parts : List (Measurement m μ)}

/-! ### The parts on one input -/

theorem runAll_eq_ok_iff {entropy : Entropy} {x : Value} {ys : List Value} :
    runAll parts entropy x = .ok ys ↔
      List.Forall₂ (fun part y => part.1.function (entropy.child part.2) x = .ok y)
        parts.zipIdx ys :=
  mapM_eq_ok_iff

theorem containsEach_outputDomains_iff {ys : List Value} :
    Domain.containsEach (parts.map (·.outputDomain)) ys = true ↔
      List.Forall₂ (fun part y => part.1.outputDomain.contains y = true) parts.zipIdx ys := by
  have hparts : parts.map (·.outputDomain) = parts.zipIdx.map fun part => part.1.outputDomain := by
    conv_lhs => rw [← List.zipIdx_map_fst 0 parts, List.map_map]
    rfl
  rw [containsEach_iff, hparts, List.forall₂_map_left_iff]

/-- One release for each part, in their order, each with entropy of its own. -/
def ReleasesEach (parts : List (Measurement m μ)) (entropy : Entropy) (x : Value)
    (ys : List Value) : Prop :=
  List.Forall₂ (fun part y => part.1.invoke (entropy.child part.2) x = .ok y) parts.zipIdx ys

theorem releasesEach_iff {entropy : Entropy} {x : Value} {ys : List Value} :
    ReleasesEach parts entropy x ys ↔ (∀ M ∈ parts, M.inputDomain.contains x = true) ∧
      runAll parts entropy x = .ok ys ∧
      Domain.containsEach (parts.map (·.outputDomain)) ys = true := by
  unfold ReleasesEach invoke
  simp only [invokeBetween_eq_ok_iff]
  rw [runAll_eq_ok_iff, containsEach_outputDomains_iff, ← forall₂_and_iff,
    List.forall₂_and_left]
  apply and_congr_left'
  conv_rhs => rw [← List.zipIdx_map_fst 0 parts]
  rw [List.forall_mem_map]

theorem forM_checkLink_eq_ok_iff {expected : Domain} :
    (parts.forM fun part => checkLink "input domain" expected part.inputDomain) = .ok () ↔
      ∀ part ∈ parts, part.inputDomain.eq expected = true := by
  induction parts with
  | nil => simp [pure, Except.pure]
  | cons part parts ih =>
    rw [List.forall_mem_cons, ← ih, ← checkLink_eq_ok_iff]
    change checkLink _ _ _ >>= (fun _ => _) = _ ↔ _
    rw [bind_eq_ok_iff]
    exact ⟨fun ⟨_, h⟩ => h, fun h => ⟨(), h⟩⟩

/-! ### Compositions -/

variable [Composable μ]

/-- What a composition of accepted parts is, on the input domain of one of them. -/
def product (first : Measurement m μ) (parts : List (Measurement m μ)) : Measurement m μ where
  inputDomain := first.inputDomain
  outputDomain := .product first.outputDomain.type (parts.map (·.outputDomain))
  function := fun entropy x => do return .list (← runAll parts entropy x)
  privacyMap := fun d => do
    return Composable.compose (← parts.mapM fun part => part.privacyMap d)

theorem compose_eq_ok_iff {C : Measurement m μ} :
    compose caps parts = .ok C ↔ .contrib ∈ caps ∧ ∃ first others, parts = first :: others ∧
      (∀ other ∈ others, other.inputDomain.eq first.inputDomain = true) ∧
      C = product first parts := by
  rw [← require_contrib_eq_ok_iff]
  constructor
  · intro h
    obtain ⟨_, hcaps, h⟩ := bind_eq_ok_iff.mp h
    cases parts with
    | nil => cases h
    | cons first others =>
      obtain ⟨_, hlinks, h⟩ := bind_eq_ok_iff.mp h
      exact ⟨hcaps, first, others, rfl, forM_checkLink_eq_ok_iff.mp hlinks,
        (Except.ok.inj h).symm⟩
  · rintro ⟨hcaps, first, others, rfl, hlinks, rfl⟩
    refine bind_eq_ok_iff.mpr ⟨(), hcaps, ?_⟩
    exact bind_eq_ok_iff.mpr ⟨(), forM_checkLink_eq_ok_iff.mpr hlinks, rfl⟩

/-- Comparing every part with the first one comes to the same as comparing all of them. -/
theorem exists_compose_eq_ok_iff :
    (∃ C, compose caps parts = .ok C) ↔ .contrib ∈ caps ∧ parts ≠ [] ∧
      ∀ M ∈ parts, ∀ N ∈ parts, M.inputDomain.eq N.inputDomain = true := by
  simp only [compose_eq_ok_iff]
  constructor
  · rintro ⟨_, hcaps, first, others, rfl, hlinks, -⟩
    refine ⟨hcaps, List.cons_ne_nil _ _, ?_⟩
    have hfirst : ∀ M ∈ first :: others, M.inputDomain.eq first.inputDomain = true :=
      List.forall_mem_cons.mpr ⟨Domain.eq_self _, hlinks⟩
    intro M hM N hN
    exact Domain.eq_trans (hfirst M hM) (Domain.eq_symm (hfirst N hN))
  · rintro ⟨hcaps, hne, hall⟩
    obtain ⟨first, others, rfl⟩ := List.exists_cons_of_ne_nil hne
    exact ⟨_, hcaps, first, others, rfl,
      fun other h => hall other (List.mem_cons_of_mem _ h) first List.mem_cons_self, rfl⟩

theorem exists_compose_perm {parts' : List (Measurement m μ)} (h : parts.Perm parts') :
    (∃ C, compose caps parts = .ok C) ↔ ∃ C, compose caps parts' = .ok C := by
  rw [exists_compose_eq_ok_iff, exists_compose_eq_ok_iff, ne_eq, ne_eq, ← List.length_eq_zero_iff,
    ← List.length_eq_zero_iff, h.length_eq]
  simp only [h.mem_iff]

section Accepted

variable {C : Measurement m μ}

theorem invoke_eq_ok_iff_of_compose (h : compose caps parts = .ok C) {entropy : Entropy}
    {x v : Value}
    (hx : ∀ M ∈ parts, M.inputDomain.unerased = true ∨ M.inputDomain.contains x = true) :
    C.invoke entropy x = .ok v ↔ ∃ ys, v = .list ys ∧ ReleasesEach parts entropy x ys := by
  obtain ⟨-, first, others, hparts, hlinks, rfl⟩ := compose_eq_ok_iff.mp h
  -- The check of the first input domain stands for those of all others.
  have hinput : first.inputDomain.contains x = true ↔
      ∀ M ∈ parts, M.inputDomain.contains x = true := by
    subst hparts
    refine ⟨fun hfirst => List.forall_mem_cons.mpr ⟨hfirst, fun other hother => ?_⟩,
      fun hall => hall first List.mem_cons_self⟩
    rcases hx other (List.mem_cons_of_mem _ hother) with hu | hother'
    · rw [Domain.contains_eq_of_eq _ _ hu (hlinks other hother)]
      exact hfirst
    · exact hother'
  unfold invoke
  rw [invokeBetween_eq_ok_iff]
  simp only [releasesEach_iff, ← hinput]
  constructor
  · rintro ⟨hfirst, hf, hv⟩
    obtain ⟨ys, hys, hlist⟩ := bind_eq_ok_iff.mp hf
    obtain rfl := Except.ok.inj hlist
    exact ⟨ys, rfl, hfirst, hys, hv⟩
  · rintro ⟨ys, rfl, hfirst, hys, hv⟩
    exact ⟨hfirst, bind_eq_ok_iff.mpr ⟨ys, hys, rfl⟩, hv⟩

theorem map_of_compose (h : compose caps parts = .ok C) {d : m.Distance} (hd : m.Legal d) :
    C.map d = do return Composable.compose (← parts.mapM fun part => part.map d) := by
  obtain ⟨-, first, others, -, -, rfl⟩ := compose_eq_ok_iff.mp h
  simp only [map_of_legal hd]
  rfl

theorem map_eq_ok_iff_of_compose (h : compose caps parts = .ok C) {d : m.Distance}
    (hd : m.Legal d) {l : μ.Loss} : C.map d = .ok l ↔ ∃ losses,
      List.Forall₂ (fun M l => M.map d = .ok l) parts losses ∧ l = Composable.compose losses := by
  rw [map_of_compose h hd, bind_eq_ok_iff]
  simp only [mapM_eq_ok_iff]
  exact exists_congr fun losses => and_congr_right' ⟨fun h => (Except.ok.inj h).symm,
    fun h => congrArg _ h.symm⟩

theorem map_eq_error_iff_of_compose (h : compose caps parts = .ok C) {d : m.Distance}
    (hd : m.Legal d) {e : Error} : C.map d = .error e ↔ FailsFirst (·.map d) parts e := by
  rw [map_of_compose h hd, bind_eq_error_iff, mapM_eq_error_iff]
  exact ⟨fun h => h.resolve_right fun ⟨_, _, h⟩ => (by cases h), Or.inl⟩

theorem exists_map_eq_ok_iff_of_compose (h : compose caps parts = .ok C) {d : m.Distance}
    (hd : m.Legal d) : (∃ l, C.map d = .ok l) ↔ ∀ M ∈ parts, ∃ l, M.map d = .ok l := by
  rw [← exists_forall₂_iff]
  simp only [map_eq_ok_iff_of_compose h hd]
  exact ⟨fun ⟨_, losses, hlosses, _⟩ => ⟨losses, hlosses⟩,
    fun ⟨losses, hlosses⟩ => ⟨_, losses, hlosses, rfl⟩⟩

end Accepted

/-- A list of parts is accepted exactly if it is not empty and all its input domains are equal, in
    whatever order. The composition then releases what the parts release and loses what their losses
    compose to, or fails as the first part without a loss does. Only where parts of the input domains
    are erased may equal domains differ in whether they have the input. -/
theorem compose_is_product (caps : Capabilities) (parts : List (Measurement m μ)) :
    ((∃ C, compose caps parts = .ok C) ↔ .contrib ∈ caps ∧ parts ≠ [] ∧
      ∀ M ∈ parts, ∀ N ∈ parts, M.inputDomain.eq N.inputDomain = true) ∧
    (∀ parts', parts.Perm parts' →
      ((∃ C, compose caps parts = .ok C) ↔ ∃ C, compose caps parts' = .ok C)) ∧
    ∀ C, compose caps parts = .ok C →
      (∀ entropy x,
        (∀ M ∈ parts, M.inputDomain.unerased = true ∨ M.inputDomain.contains x = true) →
        ∀ v, C.invoke entropy x = .ok v ↔ ∃ ys, v = .list ys ∧ ReleasesEach parts entropy x ys) ∧
      ∀ d, m.Legal d →
        (∀ l, C.map d = .ok l ↔ ∃ losses,
          List.Forall₂ (fun M l => M.map d = .ok l) parts losses ∧
          l = Composable.compose losses) ∧
        ((∃ l, C.map d = .ok l) ↔ ∀ M ∈ parts, ∃ l, M.map d = .ok l) ∧
        ∀ e, C.map d = .error e ↔ FailsFirst (·.map d) parts e :=
  ⟨exists_compose_eq_ok_iff, fun _ => exists_compose_perm, fun _ h =>
    ⟨fun _ _ hx _ => invoke_eq_ok_iff_of_compose h hx, fun _ hd =>
      ⟨fun _ => map_eq_ok_iff_of_compose h hd, exists_map_eq_ok_iff_of_compose h hd,
        fun _ => map_eq_error_iff_of_compose h hd⟩⟩⟩

def answer (respond : Bool → Bool) (loss : Result (Binary .binary64)) :
    Measurement .discrete (.maxDivergence .binary64) where
  inputDomain := .all .bool
  outputDomain := .all .bool
  function
    | _, .bool b => .ok (.bool (respond b))
    | _, v => .ok v
  privacyMap _ := loss

/-- Two answers of different truth, and a third whose loss is undefined. -/
theorem compose_is_product_answers :
    (∃ C, compose .all [answer id (.ok .one), answer not (.ok .one)] = .ok C ∧
      C.invoke (.simulated 7) (.bool true) = .ok (.list [.bool true, .bool false]) ∧
      C.map Integer.one = .ok .two) ∧
    (∃ C, compose .all [answer not (.ok .one), answer id (.ok .one)] = .ok C) ∧
    ∃ C, compose .all [answer id (.ok .one), answer not (.error .emptyComposition)] = .ok C ∧
      C.map Integer.one = .error .emptyComposition := by
  have hlegal : Metric.discrete.Legal Integer.one := rfl
  have hsum : Composable.compose (μ := .maxDivergence .binary64) [Binary.one, Binary.one] =
      Binary.two := by decide +kernel
  obtain ⟨haccept, hperm, hproduct⟩ :=
    compose_is_product .all [answer id (.ok .one), answer not (.ok .one)]
  obtain ⟨haccept', -, hproduct'⟩ :=
    compose_is_product .all [answer id (.ok .one), answer not (.error .emptyComposition)]
  obtain ⟨C, hC⟩ := haccept.mpr ⟨rfl, List.cons_ne_nil _ _, by simp [answer, Domain.eq]⟩
  obtain ⟨C', hC'⟩ := haccept'.mpr ⟨rfl, List.cons_ne_nil _ _, by simp [answer, Domain.eq]⟩
  obtain ⟨hinvoke, hmap⟩ := hproduct C hC
  refine ⟨⟨C, hC, ?_, ?_⟩, ?_, C', hC', ?_⟩
  · exact (hinvoke _ _ (by simp [answer, Domain.unerased]) _).mpr
      ⟨_, rfl, .cons rfl (.cons rfl .nil)⟩
  · exact ((hmap _ hlegal).1 _).mpr ⟨_, .cons rfl (.cons rfl .nil), hsum.symm⟩
  · exact (hperm _ (.swap _ _ [])).mp ⟨C, hC⟩
  · exact (((hproduct' C' hC').2 _ hlegal).2.2 _).mpr
      ⟨[_], _, [], rfl, List.forall_mem_singleton.mpr ⟨_, rfl⟩, rfl⟩

end Measurement
end DifferentialPrivacy
