import DifferentialPrivacy.Proofs.Random.GeometricDraw

set_option autoImplicit false

/-!
# Draws of discrete Laplace noise

Noise is the difference of two geometric draws. From the last probability of a success below one on it
is always zero, where the probability of a failure is rounded to one no noise is ever drawn, and in
between there are words of the generator that give noise other than zero.
-/
namespace DifferentialPrivacy

namespace Draw
open Binary
open Format (binary64)

section Draws

variable {γ : Type} [Generator γ] [Elementary] {scale : Binary64} {q n : Nat} (hs : scale.At q)
  (h0 : 0 < q) (hp : (successProbability scale).At n)
include hs h0 hp

theorem discreteLaplace_eq (hn : n ≤ binary64.one) :
    (discreteLaplace scale : Draw γ Int) = do
      let positive ← (Geometric.setUp (successProbability scale)).draw
      let negative ← (Geometric.setUp (successProbability scale)).draw
      return ((min positive sideLimit : Nat) : Int) - (min negative sideLimit : Nat) := by
  have hzero : ¬scale.eq .zero = true := by
    rw [hs.eq_iff (zero_at _)]
    exact h0.ne'
  have hpositive : ¬(!Binary.zero.lt scale) = true := by
    rw [((zero_at _).lt_iff hs).mpr h0]
    decide
  unfold discreteLaplace
  rw [if_neg hzero, if_neg hpositive]
  dsimp only
  rw [Geometric.ofProbability?_eq_some hp hn]

theorem failsOnly_discreteLaplace (hn : n ≤ binary64.one) :
    (discreteLaplace scale : Draw γ Int).FailsOnly (· = exhausted) := by
  rw [discreteLaplace_eq hs h0 hp hn]
  exact (Geometric.failsOnly_draw _).bind fun _ => (Geometric.failsOnly_draw _).bind fun _ =>
    failsOnly_pure _

theorem discreteLaplace_fails (hn0 : 0 < n) (hn : n ≤ vanishing) :
    (discreteLaplace scale : Draw γ Int).Fails exhausted := by
  have hone : n ≤ binary64.one := hn.trans (by decide)
  rw [discreteLaplace_eq hs h0 hp hone]
  refine Fails.bind (Geometric.draw_fails (G := Geometric.setUp _) hp hn0 hn ?_) _
  exact Geometric.setUp_of_failure_eq_one ((one_sub_eq_one_iff hp hone).mpr hn)

theorem discreteLaplace_gives_zero (hn : n ≤ binary64.one) (h : binary64.one ≤ n + 1) :
    (discreteLaplace scale : Draw γ Int).Gives 0 := by
  rw [discreteLaplace_eq hs h0 hp hn]
  have hdraw : ((Geometric.setUp (successProbability scale)).draw : Draw γ Nat).Gives 0 :=
    Geometric.draw_gives_zero hp h
  exact hdraw.bind (hdraw.bind (gives_pure _))

end Draws

/-- Some words give noise other than zero. -/
theorem exists_discreteLaplace_eq_one [Elementary] {scale : Binary64} {q n : Nat} (hs : scale.At q)
    (h0 : 0 < q) (hp : (successProbability scale).At n) (hlow : vanishing < n)
    (hhigh : n + 2 ≤ binary64.one) :
    ∃ g g', (discreteLaplace scale : Draw Repeating Int) g = .ok (1, g') := by
  obtain ⟨g, g₁, g₂, hfirst, hsecond⟩ := Geometric.exists_draws hp hlow hhigh
  refine ⟨g, g₂, ?_⟩
  rw [discreteLaplace_eq hs h0 hp (by omega)]
  refine (bind_of_eq_ok hfirst _).trans ((bind_of_eq_ok hsecond _).trans ?_)
  rfl

end Draw

end DifferentialPrivacy
