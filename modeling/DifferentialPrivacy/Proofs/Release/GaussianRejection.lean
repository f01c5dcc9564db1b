import DifferentialPrivacy.Proofs.Number.Widening
import DifferentialPrivacy.Proofs.Random.GaussianBias
import DifferentialPrivacy.Proofs.Release.SilentNoise

set_option autoImplicit false

/-!
# The rejection of discrete Gaussian noise

Wherever the variance of the scale is other than zero, what is proposed is accepted or rejected with a
legal probability. Where it is zero for a scale other than zero the input is released as it is, and the
mechanism says so: the loss at every distance other than zero is infinite, in either format.
-/
namespace DifferentialPrivacy

namespace Format

variable {f : Format} {p q a : Nat}

theorem le_upward {num den : Nat} (hden : 0 < den) (hp : p ≤ f.infinity)
    (h : f.units p * den ≤ num) : p ≤ f.upward num den :=
  (le_nearest hden hp h).trans (f.nearest_le_upward num den)

theorem quotientUp_le_infinity (f : Format) (q p : Nat) : f.quotientUp q p ≤ f.infinity := by
  unfold quotientUp
  split
  · exact le_rfl
  · exact f.upward_le_infinity _ _

theorem square_eq_zero_iff :
    f.square q = 0 ↔ 2 * (f.units q * f.units q) ≤ twoPow f.unitBits :=
  nearest_eq_zero_iff (twoPow_pos _)

theorem units_le_of_square_eq_zero (h : f.square q = 0) : f.units q ≤ twoPow (f.unitBits / 2) := by
  rw [square_eq_zero_iff] at h
  by_contra hlt
  have hroot := Nat.succ_le_of_lt (Nat.not_le.mp hlt)
  have hroom : twoPow f.unitBits <
      2 * ((twoPow (f.unitBits / 2)).succ * (twoPow (f.unitBits / 2)).succ) := by
    have hwide : twoPow f.unitBits ≤ twoPow (f.unitBits / 2 + f.unitBits / 2 + 1) :=
      twoPow_le_twoPow (by omega)
    rw [twoPow_succ, twoPow_add] at hwide
    rw [Nat.succ_eq_add_one]
    linarith [Nat.zero_le (twoPow (f.unitBits / 2))]
  have hsquare := Nat.mul_le_mul_left 2 (Nat.mul_le_mul hroot hroot)
  exact absurd h (Nat.not_le.mpr (hroom.trans_le hsquare))

/-- Where a square vanishes, that of the inverse is beyond the format. -/
theorem squareUp_quotientUp_eq_infinity (h : f.square q = 0) (hq0 : 0 < q) (ha : a ≤ f.infinity)
    (hone : twoPow f.unitBits ≤ f.units a) : f.squareUp (f.quotientUp q a) = f.infinity := by
  let reach := f.floorPosition (1 * twoPow (2 * f.unitBits - f.unitBits / 2))
  have hreach : f.units reach * twoPow (f.unitBits / 2) =
      twoPow f.unitBits * twoPow f.unitBits := by
    have hplace : f.units reach = 1 * twoPow (2 * f.unitBits - f.unitBits / 2) :=
      units_floorPosition_mul Nat.one_le_two_pow _
    rw [hplace, Nat.one_mul, ← twoPow_add, ← twoPow_add]
    congr 1
    omega
  have hle : reach ≤ f.quotientUp q a := by
    have hfits : reach ≤ f.infinity := by cases f <;> decide +kernel
    rcases ha.eq_or_lt with rfl | haf
    · rwa [f.quotientUp_infinity]
    · rw [quotientUp_of_lt haf]
      apply le_upward (units_pos hq0) hfits
      calc
        f.units reach * f.units q
          ≤ f.units reach * twoPow (f.unitBits / 2) :=
            Nat.mul_le_mul_left _ (units_le_of_square_eq_zero h)
        _ = twoPow f.unitBits * twoPow f.unitBits := hreach
        _ ≤ f.units a * twoPow f.unitBits := Nat.mul_le_mul_right _ hone
  have hend : f.squareUp reach = f.infinity := by cases f <;> decide +kernel
  apply le_antisymm (f.squareUp_le_infinity _)
  rw [← hend]
  exact squareUp_mono (f.quotientUp_le_infinity q a) hle

/-- A square that vanishes in a wider format vanishes in the narrower one. -/
theorem square_eq_zero_of_widened {g : Format} (hbits : f.unitBits ≤ g.unitBits)
    (hunits : g.units q * twoPow f.unitBits = f.units p * twoPow g.unitBits)
    (h : g.square q = 0) : f.square p = 0 := by
  rw [square_eq_zero_iff] at h ⊢
  have hpos := twoPow_pos g.unitBits
  have hwide : twoPow f.unitBits ≤ twoPow g.unitBits := twoPow_le_twoPow hbits
  apply Nat.le_of_mul_le_mul_right _ (Nat.mul_pos hpos hpos)
  calc
    2 * (f.units p * f.units p) * (twoPow g.unitBits * twoPow g.unitBits)
      = 2 * ((f.units p * twoPow g.unitBits) * (f.units p * twoPow g.unitBits)) := by ring
    _ = 2 * (g.units q * g.units q) * (twoPow f.unitBits * twoPow f.unitBits) := by
      rw [← hunits]
      ring
    _ ≤ twoPow g.unitBits * (twoPow f.unitBits * twoPow f.unitBits) := Nat.mul_le_mul_right _ h
    _ = twoPow f.unitBits * (twoPow g.unitBits * twoPow f.unitBits) := by ring
    _ ≤ twoPow f.unitBits * (twoPow g.unitBits * twoPow g.unitBits) :=
      Nat.mul_le_mul_left _ (Nat.mul_le_mul_left _ hwide)

end Format

namespace GaussianRejection
open Binary Draw DiscreteNoise DiscreteLoss
open Format (binary64)

variable {f : Format} {scale : Binary f} {p q : Nat}

theorem gaussianLoss_eq_infinity (hscale : scale.At p) (hp0 : 0 < p) (hp : p < f.infinity)
    (h : f.square p = 0) {n : Nat} (hn : 0 < n) :
    Measurement.gaussianLoss scale (.ofInt f n) = infinity := by
  obtain ⟨hle, rfl⟩ := hscale.eq_positive hp0
  have hdistance := ofInt_at f n
  have hsquare := (hdistance.divUp_at hle hp0 hp).squareUp_at
  rw [Format.squareUp_quotientUp_eq_infinity h hp0 hdistance.le_infinity
    (Format.twoPow_le_units_nearest hn)] at hsquare
  have hhalf := hsquare.divUp_two_at
  rw [f.quotientUp_infinity] at hhalf
  exact hhalf.eq_infinity

end GaussianRejection

open Arity Draw DiscreteNoise DiscreteLoss

section Accepted

variable [Elementary] (hexp : Elementary.ExpInUnit) {caps : Capabilities} {arity : Arity} {t : IntType}
  {f : Format} {scale : Binary f}
  {M : Measurement (arity.euclidean (.int t)) (.zeroConcentratedDivergence f)}
  (hM : Measurement.discreteGaussian caps arity t f scale = .ok M)
include hexp hM

/-- With a variance other than zero the proposals have a legal bias just if the variance is finite. With
    a scale other than zero whose variance is zero the input is released as it is, under an infinite
    loss. -/
theorem gaussianRejection_legal :
    ((variance (scale.convert _)).eq .zero = false → ∀ y, InRange y →
      (LegalBias (proposalBias (scale.convert _) y) ↔
        (variance (scale.convert _)).isFinite = true)) ∧
    ((variance (scale.convert _)).eq .zero = true → Binary.zero.lt scale = true →
      M.ReleasesInput ∧
      ∀ d : Integer t, 1 ≤ d.val → M.map (euclideanDistance arity d) = .ok .infinity) := by
  obtain ⟨⟨p, hpf, hp⟩, hreleases⟩ := SilentNoise.of_discreteGaussian_eq_ok hM
  obtain ⟨q, hqf, hq, hunits⟩ := Binary.convert_at hp hpf
  have hzero := variance_eq_zero_iff hq hqf
  constructor
  · intro hvariance y hy
    rw [variance_isFinite_iff hq hqf]
    exact legalBias_iff hq hqf hexp (square_pos hq hqf hvariance) hy
  · intro hvariance hscale
    have hp0 : 0 < p := ((Binary.zero_at f).lt_iff hp).mp hscale
    have hsquare := Format.square_eq_zero_of_widened (by cases f <;> decide) hunits (hzero.mp hvariance)
    constructor
    · apply hreleases
      rw [discreteGaussian_of_zero hvariance]
      exact gives_pure _
    · intro d hd
      obtain ⟨n, hn⟩ := Int.eq_ofNat_of_zero_le (by omega : 0 ≤ d.val)
      rw [(of_discreteGaussian_eq_ok hM).2 d (by omega), discreteLoss_of_pos hscale _ (by omega), hn,
        GaussianRejection.gaussianLoss_eq_infinity hp hp0 hpf hsquare (by omega)]

/-- Whatever is proposed has a legal bias, since under an infinite variance nothing is. So nothing but
    running into the limit of repetitions ends without noise. -/
theorem gaussianDraws_failOnly {γ : Type} [Generator γ] (hexp' : Elementary.ExpMinusOneAccurate)
    (hvariance : (variance (scale.convert _)).eq .zero = false) :
    ((variance (scale.convert _)).isFinite = false →
      (discreteLaplace (proposalScale (scale.convert _)) : Draw γ Int).Fails exhausted) ∧
    (discreteLaplace (proposalScale (scale.convert _)) : Draw γ Int).Always (fun y =>
      InRange y ∧ LegalBias (proposalBias (scale.convert _) y)) ∧
    (discreteGaussian (scale.convert _) : Draw γ Int).FailsOnly (· = exhausted) := by
  obtain ⟨⟨p, hpf, hp⟩, -⟩ := SilentNoise.of_discreteGaussian_eq_ok hM
  obtain ⟨q, hqf, hq, -⟩ := Binary.convert_at hp hpf
  refine ⟨fun hlast => proposal_fails hq hqf hexp' ?_,
    always_proposal_legalBias hq hqf hexp' hexp (square_pos hq hqf hvariance),
    failsOnly_discreteGaussian hq hqf hexp' hexp⟩
  rw [← Nat.not_le, ← variance_isFinite_iff hq hqf, hlast]
  exact Bool.false_ne_true

end Accepted

/-- At scale one the greatest proposal has a legal bias. -/
theorem gaussianRejection_legal_one : ∃ E : Elementary, @Elementary.ExpInUnit E ∧
    (∃ M, @Measurement.discreteGaussian E .all .scalar .i64 .binary64 .one = .ok M) ∧
    @LegalBias E (proposalBias .one IntType.i64.max) := by
  let _ := Elementary.exactNearMinusOne
  have hfinite : (Binary.one : Binary64).isFinite = true := by decide
  obtain ⟨M, hM⟩ := exists_discreteGaussian .i64 .scalar hfinite (by decide)
  have hexp := Elementary.exactNearMinusOne_expInUnit
  have hlegal := (gaussianRejection_legal hexp hM).1 (by decide +kernel) IntType.i64.max (by decide)
  rw [Binary.convert_self] at hlegal
  exact ⟨_, hexp, ⟨M, hM⟩, hlegal.mpr (by decide +kernel)⟩

/-- The double nearest to the two-hundredth power of ten. -/
def hugeScale : Binary64 := .ofBits _ 0x6974e718d7d7625a

/-- The scale is accepted, and its variance is beyond the format: no proposal has a bias. -/
theorem gaussianRejection_illegal_huge :
    hugeScale.isFinite = true ∧ (variance hugeScale).eq .zero = false ∧
    (∀ y, proposalBias hugeScale y = .nan) ∧
    ∀ E : Elementary,
      (∃ M, @Measurement.discreteGaussian E .all .scalar .i64 .binary64 hugeScale = .ok M) ∧
      ∀ y, ¬@LegalBias E (proposalBias hugeScale y) := by
  have hfinite : hugeScale.isFinite = true := by decide
  have hscale : hugeScale.At 0x6974e718d7d7625a := Binary.positive_at _
  have hend : 0x6974e718d7d7625a < Format.binary64.infinity := by decide
  have hlast : Format.binary64.lastSquare < 0x6974e718d7d7625a := by decide
  have hnan := proposalBias_eq_nan hscale hend hlast
  refine ⟨hfinite, ?_, hnan, fun E => ⟨exists_discreteGaussian .i64 .scalar hfinite (by decide), ?_⟩⟩
  · decide +kernel
  · intro y h
    have hnot := h.notNan
    rw [hnan] at hnot
    cases hnot

end DifferentialPrivacy
