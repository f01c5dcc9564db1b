import DifferentialPrivacy.Proofs.Number.NearestSquare
import DifferentialPrivacy.Proofs.Random.DiscreteLaplaceDraw
import DifferentialPrivacy.Proofs.Release.DiscreteNoise

set_option autoImplicit false

/-!
# The bias of proposals for discrete Gaussian noise

A proposal is rejected according to a bias, a square over twice the variance. As long as the variance
is finite, so is the square for every proposal that there is, and the bias is a number that is not
negative. Under an infinite variance no proposal has a bias. The scales for which it is infinite are so
large that no proposal is ever drawn.
-/
namespace DifferentialPrivacy

namespace Draw
open Binary DiscreteNoise
open Format (binary64)

/-- A bias that leads to a legal probability, with which a proposal is accepted or rejected whatever
    the generator. -/
structure LegalBias [Elementary] (bias : Binary64) : Prop where
  notNan : bias.isNan = false
  nonneg : Binary.zero.le bias = true
  probability_nonneg : Binary.zero.le (Elementary.exp (-bias)) = true
  probability_le_one : (Elementary.exp (-bias)).le .one = true
  decides : ∀ (γ : Type) [Generator γ] (g : γ),
    ∃ r, (bernoulli (Elementary.exp (-bias)) : Draw γ Bool) g = .ok r

def variance (scale : Binary64) : Binary64 := scale * scale

/-- The scale of the proposals. -/
def proposalScale (scale : Binary64) : Binary64 := scale.floor + .one

/-- The bias of a proposal. -/
def proposalBias (scale : Binary64) (y : Int) : Binary64 :=
  bias (variance scale) (proposalScale scale) y

theorem bernoulli_ok {γ : Type} [Generator γ] {p : Binary64} (h0 : Binary.zero.le p = true)
    (h1 : p.le .one = true) (g : γ) : ∃ r, (bernoulli p : Draw γ Bool) g = .ok r := by
  obtain ⟨n, hp⟩ := exists_at_of_zero_le h0
  unfold bernoulli
  rcases ((hp.le_iff (one_at _)).mp h1).eq_or_lt with rfl | hlt
  · have hnot : p.lt .one = false :=
      Bool.eq_false_iff.mpr fun h => lt_irrefl _ ((hp.lt_iff (one_at _)).mp h)
    rw [hnot, Bool.and_false, if_neg Bool.false_ne_true, if_pos ((hp.eq_iff (one_at _)).mpr rfl)]
    exact ⟨_, rfl⟩
  · rw [h0, (hp.lt_iff (one_at _)).mpr hlt]
    exact ⟨_, rfl⟩

theorem LegalBias.of_at [Elementary] (hexp : Elementary.ExpInUnit) {bias : Binary64} {b : Nat}
    (h : bias.At b) : LegalBias bias where
  notNan := by
    obtain ⟨negative, hle, rfl, -⟩ := h
    rfl
  nonneg := ((zero_at _).le_iff h).mpr b.zero_le
  probability_nonneg := (hexp _ h.neg_le_zero).1
  probability_le_one := (hexp _ h.neg_le_zero).2
  decides _ _ g := bernoulli_ok (hexp _ h.neg_le_zero).1 (hexp _ h.neg_le_zero).2 g

/-- Every machine integer has a finite square. -/
theorem le_units_lastSquare :
    twoPow 64 * twoPow binary64.unitBits ≤ binary64.units binary64.lastSquare := by
  rw [← Format.units_twoPow]
  exact binary64.units_strictMono.monotone (by decide)

theorem bias_infinity {t : Binary64} {k : Nat} (ht : t.At k) (hk0 : 0 < k)
    (hk : k < binary64.infinity) (y : Int) : bias infinity t y = nan := by
  have hend := infinity_at binary64
  have htwice : (two * infinity : Binary64) = infinity :=
    mul_of_infinite (two_at _) hend (by decide) (by decide) (Or.inr rfl)
  have hproposal := ofInt_at binary64 y.natAbs
  unfold bias
  dsimp only
  rw [infinity_div ht hk0 hk, htwice]
  rcases hproposal.le_infinity.eq_or_lt with hlast | hlast
  · rw [hlast] at hproposal
    rw [hproposal.eq_infinity, infinity_sub_infinity]
    rfl
  · rw [sub_infinity hproposal hlast, neg_mul_neg_self,
      mul_of_infinite hend hend (by decide) (by decide) (Or.inl rfl), infinity_div_infinity]

section Scale

variable {s : Binary64} {q : Nat} (hs : s.At q) (hq : q < binary64.infinity)
include hs hq

/-- The proposals have a wider scale, and it is finite as well. -/
theorem proposalScale_at : ∃ k < binary64.infinity, 0 < k ∧ q ≤ k ∧ (proposalScale s).At k := by
  obtain ⟨l, hl, hfloor, hunits⟩ := hs.floor_at hq
  have hsum := add_at hfloor (one_at _) hl (Format.one_lt_infinity _)
  have hwhole := Nat.div_mul_le_self (binary64.units q) (twoPow binary64.unitBits)
  have hpast := Nat.lt_div_mul_add (a := binary64.units q) (twoPow_pos binary64.unitBits)
  have hone := twoPow_pos binary64.unitBits
  rw [hunits, Format.units_one] at hsum
  refine ⟨_, ?_, ?_, ?_, hsum⟩
  · have hlast : binary64.nearest
        (binary64.units (binary64.infinity - 1) + twoPow binary64.unitBits) 1 < binary64.infinity := by
      decide +kernel
    have hle : binary64.units q ≤ binary64.units (binary64.infinity - 1) :=
      binary64.units_strictMono.monotone (Nat.le_sub_one_of_lt hq)
    exact (Format.nearest_mono Nat.one_pos (by omega)).trans_lt hlast
  · rw [Nat.pos_iff_ne_zero, ne_eq, Format.nearest_eq_zero_iff Nat.one_pos]
    have hunit := two_le_twoPow_unitBits binary64
    omega
  · exact Format.le_nearest Nat.one_pos hq.le (by omega)

theorem variance_at : (variance s).At (binary64.square q) := hs.square_at hq

theorem variance_isFinite_iff : (variance s).isFinite = true ↔ q ≤ binary64.lastSquare := by
  rw [(variance_at hs hq).isFinite_iff, Format.square_lt_infinity_iff]

theorem variance_eq_zero_iff : (variance s).eq .zero = true ↔ binary64.square q = 0 :=
  (variance_at hs hq).eq_iff (zero_at _)

theorem square_pos (h : (variance s).eq .zero = false) : 0 < binary64.square q := by
  rw [Nat.pos_iff_ne_zero, ne_eq, ← variance_eq_zero_iff hs hq, h]
  exact Bool.false_ne_true

/-- With an infinite variance no proposal has a bias. -/
theorem proposalBias_eq_nan (hlast : binary64.lastSquare < q) (y : Int) :
    proposalBias s y = nan := by
  obtain ⟨k, hk, hk0, -, hscale⟩ := proposalScale_at hs hq
  have hvariance := variance_at hs hq
  have hend : binary64.square q = binary64.infinity := by
    apply le_antisymm hvariance.le_infinity
    rwa [← Nat.not_lt, Format.square_lt_infinity_iff, Nat.not_le]
  rw [hend] at hvariance
  unfold proposalBias
  rw [hvariance.eq_infinity]
  exact bias_infinity hscale hk0 hk y

/-- With a finite variance every proposal has a bias. -/
theorem bias_at (hlast : q ≤ binary64.lastSquare) (h0 : 0 < binary64.square q) {y : Int}
    (hy : InRange y) : ∃ b, (proposalBias s y).At b := by
  obtain ⟨k, hk, hk0, hqk, hscale⟩ := proposalScale_at hs hq
  have hfinite := Format.square_lt_infinity_iff.mpr hlast
  have hvariance := variance_at hs hq
  have hcentre := div_at hvariance hscale hfinite hk hk0
  -- neither side of the distance has a square beyond the format
  have hcentreLast : binary64.nearest (binary64.units (binary64.square q) * twoPow binary64.unitBits)
      (binary64.units k) ≤ binary64.lastSquare := by
    apply Format.nearest_le (Format.units_pos hk0)
    refine (Format.units_square_mul_le hlast).trans (Nat.mul_le_mul_left _ ?_)
    exact binary64.units_strictMono.monotone hqk
  have hproposal := ofInt_at binary64 y.natAbs
  have hproposalLast : binary64.nearest (y.natAbs * twoPow binary64.unitBits) 1 ≤
      binary64.lastSquare := by
    have hmagnitude : y.natAbs ≤ twoPow 63 := by
      obtain ⟨hmin, hmax⟩ := hy
      have hends : IntType.i64.min = -(twoPow 63 : Nat) ∧ IntType.i64.max ≤ (twoPow 63 : Nat) := by
        decide
      omega
    apply Format.nearest_le Nat.one_pos
    rw [Nat.mul_one]
    refine (Nat.mul_le_mul_right _ ?_).trans le_units_lastSquare
    exact hmagnitude.trans (twoPow_le_twoPow (by decide))
  obtain ⟨r, hr, hsquare⟩ := sub_mul_self_at hproposal hcentre
    (hproposalLast.trans_lt (Format.lastSquare_lt_infinity _))
    (hcentreLast.trans_lt (Format.lastSquare_lt_infinity _))
  have hsquareFinite : binary64.square r < binary64.infinity :=
    Format.square_lt_infinity_iff.mpr (hr.trans (Nat.max_le.mpr ⟨hproposalLast, hcentreLast⟩))
  have htwice := mul_at (two_at _) hvariance (by decide) h0 (Format.one_add_lt_infinity _) hfinite
  refine exists_finite_div_at hsquare htwice hsquareFinite (h0.trans_le ?_)
  apply Format.le_nearest (twoPow_pos _) hfinite.le
  rw [Format.units_one_add, Nat.mul_comm, Nat.mul_assoc]
  exact Nat.le_mul_of_pos_left _ Nat.two_pos

end Scale

section Draws

variable {γ : Type} [Generator γ] [Elementary] {s : Binary64} {q : Nat}

theorem discreteGaussian_of_zero (h : (variance s).eq .zero = true) :
    (discreteGaussian s : Draw γ Int) = pure 0 := if_pos h

theorem discreteGaussian_of_ne_zero (h : (variance s).eq .zero = false) :
    (discreteGaussian s : Draw γ Int) = untilAccepted do
      let y ← discreteLaplace (proposalScale s)
      return if ← bernoulli (Elementary.exp (-proposalBias s y)) then some y else none :=
  if_neg (Bool.eq_false_iff.mp h)

variable (hs : s.At q) (hq : q < binary64.infinity)
include hs hq

theorem legalBias_iff (hexp : Elementary.ExpInUnit) (h0 : 0 < binary64.square q) {y : Int}
    (hy : InRange y) : LegalBias (proposalBias s y) ↔ q ≤ binary64.lastSquare := by
  constructor
  · intro h
    by_contra hlast
    have hnan := h.notNan
    rw [proposalBias_eq_nan hs hq (Nat.not_le.mp hlast)] at hnan
    cases hnan
  · intro hlast
    obtain ⟨b, hb⟩ := bias_at hs hq hlast h0 hy
    exact .of_at hexp hb

variable (hexp' : Elementary.ExpMinusOneAccurate)
include hexp'

theorem proposal_fails (hlast : binary64.lastSquare < q) :
    (discreteLaplace (proposalScale s) : Draw γ Int).Fails exhausted := by
  obtain ⟨k, hk, hk0, hqk, hscale⟩ := proposalScale_at hs hq
  have hlarge : 2 ^ 54 * twoPow binary64.unitBits ≤ binary64.units binary64.lastSquare :=
    (Nat.mul_le_mul_right _ (by decide)).trans le_units_lastSquare
  have hle : binary64.units binary64.lastSquare ≤ binary64.units k :=
    binary64.units_strictMono.monotone (hlast.le.trans hqk)
  obtain ⟨n, hn0, hn, hp⟩ := successProbability_le_vanishing hexp' hscale hk0 hk (hlarge.trans hle)
  exact discreteLaplace_fails hscale hk0 hp hn0 hn

theorem failsOnly_proposal :
    (discreteLaplace (proposalScale s) : Draw γ Int).FailsOnly (· = exhausted) := by
  obtain ⟨k, hk, hk0, -, hscale⟩ := proposalScale_at hs hq
  obtain ⟨n, -, hn, hp⟩ := exists_successProbability_at hexp' hscale hk0 hk
  exact failsOnly_discreteLaplace hscale hk0 hp hn

/-- Whatever is proposed has a legal bias: where it would not have one, nothing is. -/
theorem always_proposal_legalBias (hexp : Elementary.ExpInUnit) (h0 : 0 < binary64.square q) :
    (discreteLaplace (proposalScale s) : Draw γ Int).Always fun y =>
      InRange y ∧ LegalBias (proposalBias s y) := by
  intro g y g' hdraw
  have hy := always_discreteLaplace _ g y g' hdraw
  refine ⟨hy, ?_⟩
  rcases Nat.lt_or_ge binary64.lastSquare q with hlast | hlast
  · rw [proposal_fails hs hq hexp' hlast g] at hdraw
    cases hdraw
  · exact (legalBias_iff hs hq hexp h0 hy).mpr hlast

theorem failsOnly_discreteGaussian (hexp : Elementary.ExpInUnit) :
    (discreteGaussian s : Draw γ Int).FailsOnly (· = exhausted) := by
  cases hzero : (variance s).eq .zero with
  | true =>
    rw [discreteGaussian_of_zero hzero]
    exact failsOnly_pure _
  | false =>
    rw [discreteGaussian_of_ne_zero hzero]
    refine failsOnly_untilAccepted ?_ rfl
    refine (failsOnly_proposal hs hq hexp').bind_of_always
      (always_proposal_legalBias hs hq hexp' hexp (square_pos hs hq hzero)) ?_
    rintro y ⟨-, hy⟩
    refine FailsOnly.bind ?_ fun accepted => failsOnly_pure _
    intro g e he
    obtain ⟨r, hr⟩ := hy.decides γ g
    cases hr.symm.trans he

end Draws

end Draw

end DifferentialPrivacy
