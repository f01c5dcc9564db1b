import DifferentialPrivacy.Proofs.Number.Widening
import DifferentialPrivacy.Proofs.Random.DiscreteLaplaceDraw
import DifferentialPrivacy.Proofs.Release.SilentNoise

set_option autoImplicit false

/-!
# The scales of discrete Laplace noise

The mechanism is built for every scale, and its loss is an ordinary number at small and at large ones.
Between `1 / 36` and `2 ^ 53` both probabilities of the geometric draws are legal, and noise is drawn.
Up to `1 / 42` a success is certain, so the mechanism releases its input. From `2 ^ 54` on a failure is,
and no draw ever ends.
-/
namespace DifferentialPrivacy

/-- Both probabilities lie strictly between zero and one, and squaring that of two failures ends. -/
structure Geometric.Legal (p : Binary64) : Prop where
  success_pos : Binary.zero.lt p = true
  success_lt_one : p.lt .one = true
  failure_pos : Binary.zero.lt (Binary.one - p) = true
  failure_lt_one : (Binary.one - p).lt .one = true
  setUp_ends : ∃ n, (Binary.one / Binary.two).lt
    (squares ((Binary.one - p) * (Binary.one - p)) n) = false

namespace LaplaceRange
open Binary
open Format (binary64)

variable {p s : Binary64} {n q : Nat}

/-- A probability of at most one is legal between the ones that vanish against one and one. -/
theorem legal_iff (hp : p.At n) (h1 : n ≤ binary64.one) :
    Geometric.Legal p ↔ Draw.vanishing < n ∧ n < binary64.one := by
  have hf := Draw.failure_at hp h1
  constructor
  · intro h
    refine ⟨?_, (hp.lt_iff (one_at _)).mp h.success_lt_one⟩
    rw [← Nat.not_le, ← Draw.failure_eq_one_iff]
    exact ((hf.lt_iff (one_at _)).mp h.failure_lt_one).ne
  · rintro ⟨h0, h1⟩
    have hf1 : Draw.failure n < binary64.one :=
      (Draw.failure_le_one n).lt_of_ne (Draw.failure_eq_one_iff.not.mpr (Nat.not_le.mpr h0))
    exact ⟨((zero_at _).lt_iff hp).mpr (Nat.zero_lt_of_lt h0), (hp.lt_iff (one_at _)).mpr h1,
      ((zero_at _).lt_iff hf).mpr (Draw.failure_pos h1), (hf.lt_iff (one_at _)).mpr hf1,
      53, Geometric.squares_le_half hf hf1⟩

theorem eq_one_iff (hp : p.At n) : p = .one ↔ n = binary64.one := by
  constructor
  · rintro rfl
    exact hp.unique (one_at _)
  · rintro rfl
    exact (hp.eq_positive (by decide)).2

theorem almostOne_at : Draw.almostOne.At (binary64.one - 1) := by
  have heq : Draw.almostOne = .signed false (binary64.one - 1) (by decide) := by decide
  rw [heq]
  exact positive_at _

section Scale

variable [Elementary] (hexp : Elementary.ExpMinusOneAccurate) (hs : s.At q) (h0 : 0 < q)
  (hq : q < binary64.infinity)
include hexp hs h0 hq

theorem between (hlow : 1 / 36 ≤ s.value) (hhigh : s.value ≤ 2 ^ 53) :
    (Draw.successProbability s).lt Draw.almostOne = true ∧
      Binary.one - Draw.successProbability s ≠ .one := by
  have hunit := twoPow_unitBits_pos binary64
  rw [hs.value_eq, div_le_div_iff₀ (by norm_num) hunit, one_mul] at hlow
  rw [hs.value_eq, div_le_iff₀ hunit] at hhigh
  obtain ⟨n, hn, hn1, hp⟩ := Draw.successProbability_between hexp hs h0 hq
    (by rw [Nat.mul_comm]; exact_mod_cast hlow) (by exact_mod_cast hhigh)
  rw [hp.lt_iff almostOne_at, ne_eq, Draw.one_sub_eq_one_iff hp (by omega)]
  omega

theorem eq_one_of_small (h : s.value ≤ 1 / 42) : Draw.successProbability s = .one := by
  apply Draw.successProbability_eq_one hexp hs h0 hq
  rw [hs.value_eq, div_le_div_iff₀ (twoPow_unitBits_pos binary64) (by norm_num), one_mul] at h
  rw [Nat.mul_comm]
  exact_mod_cast h

theorem one_sub_eq_one_of_large (h : 2 ^ 54 ≤ s.value) :
    Binary.one - Draw.successProbability s = .one := by
  rw [hs.value_eq, le_div_iff₀ (twoPow_unitBits_pos binary64)] at h
  obtain ⟨n, -, hn, hp⟩ :=
    Draw.successProbability_le_vanishing hexp hs h0 hq (by exact_mod_cast h)
  exact (Draw.one_sub_eq_one_iff hp (hn.trans (by decide))).mpr hn

end Scale

/-- The scale `1 / 64`. -/
def sixtyFourth : Binary64 := .ofBits _ 0x3f90000000000000

theorem sixtyFourth_at : ∃ q, sixtyFourth.At q ∧ 0 < q ∧ q < binary64.infinity ∧
    sixtyFourth.value ≤ 1 / 42 :=
  ⟨0x3f90000000000000, positive_at (by decide), by decide, by decide, by decide +kernel⟩

theorem sixtyFourth_loss : Measurement.laplaceLoss sixtyFourth (.ofInt _ 1) = .ofInt _ 64 := by
  have hquotient : Measurement.laplaceLoss sixtyFourth (.ofInt _ 1) = .ofBits _ 0x4050000000000000 := by
    decide +kernel
  have hvalue : Binary.ofBits .binary64 0x4050000000000000 = .ofInt _ 64 := by decide +kernel
  exact hquotient.trans hvalue

end LaplaceRange

open LaplaceRange

/-- What a scale makes of discrete Laplace noise. The probability `p` of a success is legal unless it or
    the probability `1 - p` of a failure is one. From the last `p` below one on the input is released
    as it is. Below it noise other than zero is drawn, unless `1 - p` is one: then its squares stay
    there, and no generator ever leads to noise. A scale from `1 / 36` to `2 ^ 53` keeps away from
    both ends, one up to `1 / 42` has a `p` of one, and one from `2 ^ 54` on has a `1 - p` of one. -/
theorem laplaceNoise_ranges [Elementary] (hexp : Elementary.ExpMinusOneAccurate)
    {caps : Capabilities} {arity : Arity} {t : IntType} {f : Format} {scale : Binary f}
    {M : Measurement (arity.summed (.int t)) (.maxDivergence f)}
    (hM : Measurement.discreteLaplace caps arity t f scale = .ok M)
    (hscale : Binary.zero.lt scale = true) {p : Binary64}
    (hp : Draw.successProbability (scale.convert _) = p) :
    (Geometric.Legal p ↔ p ≠ .one ∧ Binary.one - p ≠ .one) ∧
    (Draw.almostOne.le p = true → M.ReleasesInput) ∧
    (p.lt Draw.almostOne = true → Binary.one - p ≠ .one →
      ∃ g g' k, (Draw.discreteLaplace (scale.convert _) : Draw Repeating Int) g = .ok (k, g') ∧
        k ≠ 0) ∧
    (Binary.one - p = .one →
      (∀ n, (Binary.one / Binary.two).lt
        (Geometric.squares ((Binary.one - p) * (Binary.one - p)) n) = true) ∧
      (Draw.discreteLaplace (scale.convert _) : Draw ChaCha Int).Fails Draw.exhausted) ∧
    (1 / 36 ≤ scale.value → scale.value ≤ 2 ^ 53 →
      p.lt Draw.almostOne = true ∧ Binary.one - p ≠ .one) ∧
    (scale.value ≤ 1 / 42 → p = .one) ∧ (2 ^ 54 ≤ scale.value → Binary.one - p = .one) := by
  subst hp
  obtain ⟨⟨r, hrf, hr⟩, hreleases⟩ := SilentNoise.of_discreteLaplace_eq_ok hM
  have hr0 : 0 < r := ((Binary.zero_at f).lt_iff hr).mp hscale
  obtain ⟨q, hq0, hqf, hq⟩ := Binary.exists_convert_at hr hr0 hrf
  obtain ⟨n, hn0, hn1, hp⟩ := Draw.exists_successProbability_at hexp hq hq0 hqf
  have hfailure := Draw.one_sub_eq_one_iff hp hn1
  rw [← Binary.value_convert hr hrf]
  refine ⟨?_, ?_, ?_, ?_, between hexp hq hq0 hqf, eq_one_of_small hexp hq hq0 hqf,
    one_sub_eq_one_of_large hexp hq hq0 hqf⟩
  · rw [legal_iff hp hn1, ne_eq, ne_eq, eq_one_iff hp, hfailure]
    omega
  · intro hsure
    rw [almostOne_at.le_iff hp] at hsure
    exact hreleases (Draw.discreteLaplace_gives_zero hq hq0 hp hn1 (by omega))
  · intro hlt hfails
    rw [hp.lt_iff almostOne_at] at hlt
    rw [ne_eq, hfailure, Nat.not_le] at hfails
    obtain ⟨g, g', hdraw⟩ := Draw.exists_discreteLaplace_eq_one hq hq0 hp hfails (by omega)
    exact ⟨g, g', 1, hdraw, one_ne_zero⟩
  · intro hfails
    refine ⟨fun n => ?_, Draw.discreteLaplace_fails hq hq0 hp hn0 (hfailure.mp hfails)⟩
    rw [hfails, Binary.mul_one, Geometric.squares_one]
    decide +kernel

/-- At scale one the probabilities are legal, and noise is drawn. -/
theorem laplaceNoise_ranges_one : ∃ E : Elementary, @Elementary.ExpMinusOneAccurate E ∧
    (∃ M, @Measurement.discreteLaplace E .all .scalar .i64 .binary64 .one = .ok M) ∧
    Geometric.Legal (@Draw.successProbability E .one) ∧
    ∃ g g' k, @Draw.discreteLaplace Repeating _ E .one g = .ok (k, g') ∧ k ≠ 0 := by
  let _ := Elementary.exactNearMinusOne
  have hfinite : (Binary.one : Binary64).isFinite = true := by decide
  obtain ⟨M, hM⟩ := DiscreteLoss.exists_discreteLaplace .i64 .scalar hfinite (by decide)
  obtain ⟨hlegal, -, hnoise, -, hbetween, -⟩ :=
    laplaceNoise_ranges Elementary.exactNearMinusOne_accurate hM (by decide) rfl
  rw [Binary.convert_self] at hlegal hnoise hbetween
  obtain ⟨hlt, hfails⟩ := hbetween (by rw [Binary.value_one]; norm_num)
    (by rw [Binary.value_one]; norm_num)
  have hne : Draw.successProbability .one ≠ .one := by
    intro hone
    rw [hone] at hlt
    exact absurd hlt (by decide)
  exact ⟨_, Elementary.exactNearMinusOne_accurate, ⟨M, hM⟩, hlegal.mpr ⟨hne, hfails⟩,
    hnoise hlt hfails⟩

/-- At scale `1 / 64` the loss of distance one is 64, a success is certain, and the input is released
    as it is. -/
theorem laplaceNoise_silent : ∃ E : Elementary, @Elementary.ExpMinusOneAccurate E ∧
    ∃ M : Measurement (.absolute (.int .i64)) (.maxDivergence .binary64),
      @Measurement.discreteLaplace E .all .scalar .i64 .binary64 sixtyFourth = .ok M ∧
      M.map (Integer.one : Integer .i64) = .ok (.ofInt _ 64) ∧
      (@Draw.successProbability E sixtyFourth).lt .one = false ∧ M.ReleasesInput := by
  let _ := Elementary.exactNearMinusOne
  obtain ⟨q, hq, hq0, hqf, hsmall⟩ := sixtyFourth_at
  have hscale : Binary.zero.lt sixtyFourth = true := by decide
  obtain ⟨M, hM⟩ := DiscreteLoss.exists_discreteLaplace .i64 .scalar (hq.isFinite_iff.mpr hqf)
    (by decide)
  have hone := eq_one_of_small Elementary.exactNearMinusOne_accurate hq hq0 hqf hsmall
  have hmap : M.map (Integer.one : Integer .i64) =
      Measurement.discreteLoss (s := .int .i64) sixtyFourth (Measurement.laplaceLoss sixtyFourth) .one :=
    (DiscreteLoss.of_discreteLaplace_eq_ok hM).2 .one (by decide)
  have hloss := DiscreteLoss.discreteLoss_of_pos hscale (Measurement.laplaceLoss sixtyFourth)
    (d := (.one : Integer .i64)) (by decide)
  refine ⟨_, Elementary.exactNearMinusOne_accurate, M, hM, ?_, ?_, ?_⟩
  · rw [hmap, hloss]
    exact congrArg Except.ok sixtyFourth_loss
  · rw [hone]
    decide
  · apply (SilentNoise.of_discreteLaplace_eq_ok hM).2
    rw [Binary.convert_self]
    exact Draw.discreteLaplace_gives_zero hq hq0 (hone ▸ Binary.one_at _) le_rfl (Nat.le_succ _)

end DifferentialPrivacy
