import DifferentialPrivacy.Proofs.Number.SumError
import DifferentialPrivacy.Proofs.Random.Repetition
import DifferentialPrivacy.Proofs.Release.DiscreteLoss
import DifferentialPrivacy.Proofs.Release.DiscreteNoise

set_option autoImplicit false

/-!
# Mechanisms without noise

Where the noise that a discrete mechanism draws is zero whatever the generator, the mechanism releases
every member of its domain as it is.
-/
namespace DifferentialPrivacy

/-- Whatever a generator gives, a member of the domain is its own release. -/
def Measurement.ReleasesInput {m : Metric} {μ : Measure} (M : Measurement m μ) : Prop :=
  ∀ (entropy : Entropy) (g : ChaCha) (v : Value), entropy.generator = .ok g →
    M.inputDomain.contains v = true → M.invoke entropy v = .ok v

namespace SilentNoise
open DiscreteNoise

variable {γ : Type} {t : IntType} {noise : Draw γ Int}

theorem addNoise_zero (x : Integer t) : x.addNoise 0 = x := by
  have hmin := x.min_le
  have hmax := x.le_max
  rw [addNoise_of_abs_le x (abs_zero.trans_le t.zero_le_max), Integer.ext_iff, Saturation.val_clamp]
  omega

theorem adding_gives (h : noise.Gives 0) (x : Integer t) : (adding noise x).Gives x := by
  have hx : (pure (x.addNoise 0) : Draw γ (Integer t)).Gives x := by
    rw [addNoise_zero]
    exact Draw.gives_pure x
  exact h.bind hx

theorem perturbNumber_gives (h : noise.Gives 0) (v : Value) :
    (v.perturbNumber (.int t) (adding noise)).Gives v := by
  unfold Value.perturbNumber
  split
  · split
    · rename_i s x hs
      subst hs
      exact (adding_gives h x).bind (Draw.gives_pure _)
    · exact Draw.gives_pure _
  · exact Draw.gives_pure _

theorem mapM_gives {perturb : Value → Draw γ Value} (h : ∀ v, (perturb v).Gives v) (vs : List Value) :
    (vs.mapM perturb).Gives vs := by
  induction vs with
  | nil => exact Draw.gives_pure _
  | cons v vs ih =>
    rw [List.mapM_cons]
    exact (h v).bind (ih.bind (Draw.gives_pure _))

theorem perturb_gives (h : noise.Gives 0) (v : Value) :
    (v.perturb (.int t) (adding noise)).Gives v := by
  unfold Value.perturb
  split
  · exact (mapM_gives (perturbNumber_gives h) _).bind (Draw.gives_pure _)
  · exact perturbNumber_gives h v

theorem drawing_of_gives {α β : Type} {draw : α → Draw ChaCha β} {a : α} {b : β} {entropy : Entropy}
    {g : ChaCha} (h : (draw a).Gives b) (hg : entropy.generator = .ok g) :
    drawing draw entropy a = .ok b := by
  obtain ⟨g', hb⟩ := h g
  unfold drawing
  rw [hg]
  change draw a g >>= (fun r => Except.ok r.1) = .ok b
  rw [hb]
  rfl

theorem invokeBetween_of_gives {noise : Draw ChaCha Int} {domain : Domain} {v : Value}
    {entropy : Entropy} {g : ChaCha} (h : noise.Gives 0) (hg : entropy.generator = .ok g)
    (hv : domain.contains v = true) :
    invokeBetween domain domain (drawing (Value.perturb (.int t) (adding noise)) entropy) v = .ok v :=
  invokeBetween_eq_ok hv (drawing_of_gives (perturb_gives h v) hg) hv

section Mechanisms

variable [Elementary] {caps : Capabilities} {arity : Arity} {f : Format} {scale : Binary f}

omit [Elementary] in
theorem exists_at_of_isFinite (h : scale.isFinite = true ∧ Binary.zero.le scale = true) :
    ∃ p < f.infinity, scale.At p := by
  obtain ⟨p, hp⟩ := Binary.exists_at_of_zero_le h.2
  exact ⟨p, hp.isFinite_iff.mp h.1, hp⟩

theorem of_discreteLaplace_eq_ok {M : Measurement (arity.summed (.int t)) (.maxDivergence f)}
    (hM : Measurement.discreteLaplace caps arity t f scale = .ok M) :
    (∃ p < f.infinity, scale.At p) ∧
      ((Draw.discreteLaplace (scale.convert _) : Draw ChaCha Int).Gives 0 → M.ReleasesInput) := by
  obtain ⟨-, hscale, rfl⟩ := Measurement.discreteLaplace_eq_ok_iff.mp hM
  exact ⟨exists_at_of_isFinite hscale, fun h entropy g v hg hv => invokeBetween_of_gives h hg hv⟩

theorem of_discreteGaussian_eq_ok
    {M : Measurement (arity.euclidean (.int t)) (.zeroConcentratedDivergence f)}
    (hM : Measurement.discreteGaussian caps arity t f scale = .ok M) :
    (∃ p < f.infinity, scale.At p) ∧
      ((Draw.discreteGaussian (scale.convert _) : Draw ChaCha Int).Gives 0 → M.ReleasesInput) := by
  obtain ⟨-, hscale, rfl⟩ := Measurement.discreteGaussian_eq_ok_iff.mp hM
  exact ⟨exists_at_of_isFinite hscale, fun h entropy g v hg hv => invokeBetween_of_gives h hg hv⟩

end Mechanisms

end SilentNoise

end DifferentialPrivacy
