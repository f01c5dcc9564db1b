import DifferentialPrivacy.Proofs.Accounting.SamplingRate
import DifferentialPrivacy.Proofs.Number.DifferenceError
import DifferentialPrivacy.Release.RandomizedResponse
import Mathlib.Data.Nat.Prime.Basic

set_option autoImplicit false

/-!
# Odds of an honest answer

The odds of the truth against any one other category are at least one, also as they are computed: the
probability of a lie is rounded down, and everything else is rounded up. This takes more than the
directions of the rounding, because the least probability that is accepted, one over the number of
categories, is itself rounded to nearest.
-/
namespace DifferentialPrivacy
namespace Format

variable {f : Format} {n p t : Nat}

/-! ### Whole numbers and their reciprocals -/

/-- A whole number is still one after it is rounded. -/
theorem exists_units_whole (h : 2 ≤ n) (hmax : n ≤ twoPow 64) :
    ∃ t, f.units (f.nearest (n * twoPow f.unitBits) 1) = t * twoPow f.unitBits ∧
      2 ≤ t ∧ t ≤ twoPow 64 := by
  have hunit := twoPow_pos f.unitBits
  have hlow : f.one + twoPow f.fractionBits ≤ f.nearest (n * twoPow f.unitBits) 1 := by
    apply le_nearest Nat.one_pos f.one_add_lt_infinity.le
    rw [units_one_add, Nat.mul_one]
    exact Nat.mul_le_mul_right _ h
  have hhigh : f.units (f.nearest (n * twoPow f.unitBits) 1) ≤ twoPow 64 * twoPow f.unitBits := by
    rw [← f.units_twoPow, f.units_strictMono.le_iff_le]
    apply nearest_le Nat.one_pos
    rw [f.units_twoPow, Nat.mul_one]
    exact Nat.mul_le_mul_right _ hmax
  have hdvd : twoPow f.unitBits ∣ f.units (f.nearest (n * twoPow f.unitBits) 1) := by
    rcases Nat.le_total n (twoPow (f.fractionBits + 1)) with hn | hn
    · rw [units_nearest_of_le hn]
      exact Nat.dvd_mul_left _ _
    · -- From here on the spacing is at least one.
      have hwhole := units_nearest_of_le (f := f) (Nat.le_refl (twoPow (f.fractionBits + 1)))
      generalize hl : f.nearest (twoPow (f.fractionBits + 1) * twoPow f.unitBits) 1 = l at hwhole
      have hle : l ≤ f.nearest (n * twoPow f.unitBits) 1 :=
        hl ▸ nearest_mono Nat.one_pos (Nat.mul_le_mul_right _ hn)
      refine Nat.dvd_trans ?_ (spacing_dvd_units_of_le hle)
      have hwide := (f.units_strictMono l.lt_succ_self).trans_le (f.units_succ_le l)
      rw [hwhole] at hwide
      have hlt := Nat.lt_of_mul_lt_mul_left hwide
      unfold spacing at hlt ⊢
      exact Nat.pow_dvd_pow 2 ((Nat.pow_lt_pow_iff_right (by decide)).mp hlt).le
  obtain ⟨t, ht⟩ := exists_eq_mul_left_of_dvd hdvd
  have hunits := f.units_strictMono.le_iff_le.mpr hlow
  rw [units_one_add, ht] at hunits
  rw [ht] at hhigh
  exact ⟨t, ht, Nat.le_of_mul_le_mul_right hunits hunit, Nat.le_of_mul_le_mul_right hhigh hunit⟩

/-- The shortfall `d` of a rounded reciprocal is a whole number of spacings. It is no tie: an odd
    factor other than one would divide a power of two. -/
theorem two_mul_ne_of_shortfall {k σ d sp : Nat} (h : (σ * t + d) * sp = twoPow k) (hσ : 0 < σ) :
    2 * d ≠ t := by
  rintro rfl
  have hodd : (2 * σ + 1) ∣ twoPow k := ⟨d * sp, by rw [← h]; ring⟩
  have hone : Nat.Coprime (2 * σ + 1) (twoPow k) := by
    apply Nat.Coprime.pow_right
    simp
  have := hone.eq_one_of_dvd hodd
  omega

/-- The reciprocals of machine integers are far above the first binade, so they have a whole
    significand. -/
theorem twoPow_le_of_reciprocal {σ : Nat} (hmax : t ≤ twoPow 64) (hσ : f.units p = σ * f.spacing p)
    (h : 2 * twoPow f.unitBits ≤ (2 * f.units p + f.spacing p) * t) : twoPow f.fractionBits ≤ σ := by
  rcases f.spacing_le_one_or p with hone | hnormal
  · by_contra hsmall
    have hfits : twoPow f.fractionBits * twoPow 64 ≤ twoPow f.unitBits := by
      rw [← twoPow_add]
      exact twoPow_le_twoPow (by cases f <;> decide)
    rw [hone, Nat.mul_one] at hσ
    rw [hone, hσ] at h
    have hbound := h.trans (Nat.mul_le_mul_left _ hmax)
    have hsmall' := Nat.mul_lt_mul_of_pos_right
      (by omega : 2 * σ + 1 < 2 * twoPow f.fractionBits) (twoPow_pos 64)
    rw [Nat.mul_assoc 2] at hsmall'
    omega
  · rw [hσ] at hnormal
    exact Nat.le_of_mul_le_mul_right hnormal (f.spacing_pos p)

/-- In spacings, with `σ` for a number, `d` for its shortfall and `F` for half of the precision. -/
theorem shortfall_lt {F σ d : Nat} (hF : F ≤ σ) (hd : 0 < d) (h : 2 * d < t) :
    (σ * t + d) * (F * 2) + σ < σ * t * (F * 2) + (σ * t + d) := by
  obtain ⟨others, rfl⟩ : ∃ others, t = others + 1 := ⟨t - 1, by omega⟩
  have hscaled := Nat.mul_le_mul hF (Nat.le_of_lt_succ h)
  linarith

/-- A number below the exact reciprocal of `t`, but not below the rounded one, is the nearest one from
    below: the exact reciprocal does not lie beyond the middle of the next step. -/
theorem reciprocal_le_middle (ht : 0 < t) (hpf : p < f.infinity)
    (hbelow : f.units p * t < twoPow f.unitBits)
    (h : f.nearest (twoPow f.unitBits * twoPow f.unitBits) (t * twoPow f.unitBits) ≤ p) :
    2 * twoPow f.unitBits ≤ (2 * f.units p + f.spacing p) * t := by
  have hunit := twoPow_pos f.unitBits
  obtain ⟨low, hle, hnext, hhalves⟩ := f.nearest_halves (twoPow f.unitBits * twoPow f.unitBits)
    (Nat.mul_pos ht hunit)
  rw [← Nat.mul_assoc] at hle hnext
  have hle' := Nat.le_of_mul_le_mul_right hle hunit
  have hnext' := Nat.lt_of_mul_lt_mul_right hnext
  have hplow : p < low + 1 := by
    apply f.units_strictMono.lt_iff_lt.mp
    apply Nat.lt_of_mul_lt_mul_right (a := t)
    omega
  obtain rfl : low = p := by omega
  rcases hhalves with ⟨-, hm⟩ | ⟨hn, -⟩
  · rw [units_succ, ← Nat.mul_assoc, ← Nat.mul_assoc] at hm
    have hm' := Nat.le_of_mul_le_mul_right hm hunit
    rwa [← Nat.add_assoc, ← Nat.two_mul] at hm'
  · omega

/-- A number that is no less than the rounded reciprocal of `t` falls short of the exact reciprocal,
    if at all, by less than its complement does of one, scaled down by the precision. -/
theorem reciprocal_close (ht : 2 ≤ t) (hmax : t ≤ twoPow 64) (hp : p < f.one)
    (h : f.nearest (twoPow f.unitBits * twoPow f.unitBits) (t * twoPow f.unitBits) ≤ p) :
    twoPow f.unitBits * f.lastConsecutive + f.units p <
      f.units p * t * f.lastConsecutive + twoPow f.unitBits := by
  have hlt := f.units_strictMono hp
  rw [units_one] at hlt
  by_cases hover : twoPow f.unitBits ≤ f.units p * t
  · have := Nat.mul_le_mul_right f.lastConsecutive hover
    omega
  have hmiddle := reciprocal_le_middle (Nat.zero_lt_of_lt ht) (hp.trans f.one_lt_infinity)
    (Nat.not_le.mp hover) h
  -- In spacings: `σ` for the number and `d` for what the exact reciprocal is more.
  obtain ⟨σ, hσ⟩ := exists_eq_mul_left_of_dvd (f.spacing_dvd_units p)
  have hspacing : f.spacing p ∣ twoPow f.unitBits := by
    rw [← units_one]
    exact spacing_dvd_units_of_le hp.le
  obtain ⟨d, hd⟩ := exists_eq_mul_left_of_dvd
    (Nat.dvd_sub hspacing (Dvd.dvd.mul_right (f.spacing_dvd_units p) t))
  have hσlarge := twoPow_le_of_reciprocal hmax hσ hmiddle
  have hsum : twoPow f.unitBits = (σ * t + d) * f.spacing p := by
    rw [Nat.add_mul, ← hd, Nat.mul_right_comm, ← hσ]
    omega
  have hne := two_mul_ne_of_shortfall hsum.symm ((twoPow_pos _).trans_le hσlarge)
  have hsp := f.spacing_pos p
  have hd0 : 0 < d := by
    apply Nat.pos_of_mul_pos_right (b := f.spacing p)
    omega
  rw [hσ, hsum] at hmiddle ⊢
  have hmiddle' : 2 * (σ * t + d) ≤ (2 * σ + 1) * t := by
    apply Nat.le_of_mul_le_mul_right _ hsp
    linarith
  have hd2 : 2 * d < t := by
    rw [Nat.add_mul, Nat.mul_assoc 2] at hmiddle'
    omega
  have hgoal := Nat.mul_lt_mul_of_pos_right (shortfall_lt hσlarge hd0 hd2) hsp
  unfold lastConsecutive
  rw [twoPow_succ]
  linarith

/-- One half is a number of the format. -/
theorem le_two_mul_units
    (h : f.nearest (twoPow f.unitBits * twoPow f.unitBits) (2 * twoPow f.unitBits) ≤ p) :
    twoPow f.unitBits ≤ 2 * f.units p := by
  obtain ⟨half, hhalf⟩ := exists_two_mul_units_eq (f := f) (p := f.one)
    ((Nat.one_lt_two_pow f.fractionBits.succ_ne_zero).trans_le f.spacing_one.1).ne'
  rw [units_one] at hhalf
  have hfits : half ≤ f.infinity := by
    refine f.one_le_infinity.trans' (f.units_strictMono.le_iff_le.mp ?_)
    rw [units_one]
    omega
  have hhalfp : half ≤ p := by
    refine le_trans (le_nearest (Nat.mul_pos Nat.two_pos (twoPow_pos _)) hfits ?_) h
    rw [← Nat.mul_assoc, Nat.mul_comm _ 2, hhalf]
  have := f.units_strictMono.le_iff_le.mpr hhalfp
  omega

/-- Odds `p / r` that leave `u` lies a gap below one put `p` a gap below the reciprocal of `t` as well,
    in units of a gap that fits `last` times into one. -/
theorem mul_le_of_odds_lt {unit gap last p r w u t : Nat} (hunit : 0 < unit) (hgap : gap * last = unit)
    (hr : r + p ≤ unit) (hw : w + gap ≤ unit) (hcross : p * u ≤ r * w) (hu : t * unit ≤ unit + u) :
    p * t * last + unit ≤ unit * last + p := by
  have hcomplements : (r * w : Int) ≤ (unit - p) * (unit - gap) :=
    mul_le_mul (by omega) (by omega) (by omega) (by omega)
  have hall : p * t * unit + unit * gap ≤ unit * unit + p * gap := by
    have hscaled := Nat.mul_le_mul_left p hu
    zify at hcross hscaled ⊢
    linarith
  apply Nat.le_of_mul_le_mul_right _ hunit
  calc
    _ = p * t * unit * last + unit * (gap * last) := by rw [hgap]; ring
    _ = (p * t * unit + unit * gap) * last := by ring
    _ ≤ (unit * unit + p * gap) * last := Nat.mul_le_mul_right last hall
    _ = unit * unit * last + p * (gap * last) := by ring
    _ = _ := by rw [hgap]; ring

section Odds

variable {r u : Nat} (ht : 2 ≤ t) (hmax : t ≤ twoPow 64) (hp : p < f.one)
  (h : f.nearest (twoPow f.unitBits * twoPow f.unitBits) (t * twoPow f.unitBits) ≤ p)
include ht hmax hp h

/-- The reciprocals of machine integers are far too large to lose a remainder. -/
theorem remainderBound_le_of_reciprocal : f.remainderBound ≤ f.units p := by
  have hclose := reciprocal_close ht hmax hp h
  have hlast : 2 ≤ f.lastConsecutive := by cases f <;> decide
  have hroom : f.remainderBound * (2 * twoPow 64) ≤ twoPow f.unitBits := by
    rw [Nat.mul_comm 2, ← twoPow_succ, remainderBound, ← twoPow_add]
    exact twoPow_le_twoPow (by cases f <;> decide)
  by_contra hsmall
  have hscaled := Nat.mul_le_mul_left (2 * f.units p) hmax
  have hlt : twoPow f.unitBits < 2 * f.units p * t := by
    apply Nat.lt_of_mul_lt_mul_right (a := f.lastConsecutive)
    have htwo := Nat.mul_le_mul_left (twoPow f.unitBits) hlast
    linarith
  have hlarge := Nat.mul_lt_mul_of_pos_right (Nat.not_le.mp hsmall)
    (Nat.mul_pos Nat.two_pos (twoPow_pos 64))
  linarith

/-- The odds `p / r` are bounds on `p / (1 - p)`, and `u` on the number of lies. -/
theorem one_le_odds (hr0 : 0 < r) (hr : f.units r + f.units p ≤ twoPow f.unitBits)
    (hu : t * twoPow f.unitBits ≤ twoPow f.unitBits + f.units u)
    (hfinite : f.upward (f.units p * twoPow f.unitBits) (f.units r) < f.infinity) :
    f.one ≤ f.upward (f.units (f.upward (f.units p * twoPow f.unitBits) (f.units r)) * f.units u)
      (twoPow f.unitBits) := by
  have hunit := twoPow_pos f.unitBits
  have hclose := reciprocal_close ht hmax hp h
  have hlarge := remainderBound_le_of_reciprocal ht hmax hp h
  obtain ⟨hpred, hstep⟩ := f.units_one_pred
  have hodds := (le_units_upward_iff (units_pos hr0) hfinite).mpr
    (not_remainderVanishes_quotient hlarge hr0)
  generalize f.upward (f.units p * twoPow f.unitBits) (f.units r) = o at *
  have hpo : f.units p ≤ f.units o := by
    apply Nat.le_of_mul_le_mul_right _ hunit
    exact hodds.trans (Nat.mul_le_mul_left _ (by omega))
  have hlies : twoPow f.unitBits ≤ f.units u := by
    have := Nat.mul_le_mul_right (twoPow f.unitBits) ht
    omega
  by_contra hbelow
  have hproduct := (le_units_upward_iff hunit ((Nat.not_le.mp hbelow).trans f.one_lt_infinity)).mpr
    (not_remainderVanishes_product (Nat.mul_le_mul (hlarge.trans hpo) hlies))
  have hw := f.units_strictMono.le_iff_le.mpr (Nat.le_pred_of_lt (Nat.not_le.mp hbelow))
  rw [Nat.pred_eq_sub_one] at hw
  generalize f.units (f.upward (f.units o * f.units u) (twoPow f.unitBits)) = w at *
  have hcross : f.units p * f.units u ≤ f.units r * w := by
    apply Nat.le_of_mul_le_mul_right _ hunit
    calc
      f.units p * f.units u * twoPow f.unitBits = f.units p * twoPow f.unitBits * f.units u := by ring
      _ ≤ f.units o * f.units r * f.units u := Nat.mul_le_mul_right _ hodds
      _ = f.units r * (f.units o * f.units u) := by ring
      _ ≤ f.units r * (w * twoPow f.unitBits) := Nat.mul_le_mul_left _ hproduct
      _ = f.units r * w * twoPow f.unitBits := by ring
  have hfar := mul_le_of_odds_lt hunit hstep hr (by omega : w + f.spacing (f.one - 1) ≤ _) hcross hu
  omega

end Odds
end Format

namespace Measurement
open Binary

variable {f : Format} {p : Binary f} {n q : Nat}

/-! ### Odds as they are computed -/

theorem uniform_at (f : Format) (hn : 0 < n) (hmax : (n : Int) ≤ IntType.usize.max) :
    (one / ofInt f n).At (f.nearest (twoPow f.unitBits * twoPow f.unitBits)
      (f.units (f.nearest (n * twoPow f.unitBits) 1))) := by
  have hwhole := ofInt_at f n
  obtain ⟨v, hv, hv0, hvf, heq⟩ := SamplingRate.exists_ofInt_positive hn hmax f
  rw [heq] at hwhole ⊢
  obtain rfl := hwhole.unique (positive_at hv)
  change (div _ _).At _
  unfold div one
  dsimp only
  rw [if_neg f.one_lt_infinity.ne, if_neg hvf.ne, if_neg hv0.ne', f.units_one]
  exact positive_at _

theorem of_checkProbability_eq_ok (hn : 0 < n) (hmax : (n : Int) ≤ IntType.usize.max)
    (h : checkProbability p n = .ok ()) : ∃ q, p.At q ∧ q < f.one ∧
      f.nearest (twoPow f.unitBits * twoPow f.unitBits)
        (f.units (f.nearest (n * twoPow f.unitBits) 1)) ≤ q := by
  have huniform := uniform_at f hn hmax
  unfold checkProbability at h
  dsimp only at h
  split at h
  · rename_i hbounds
    obtain ⟨hle, hlt⟩ := Bool.and_eq_true_iff.mp hbounds
    obtain ⟨_, q, -, hq, -⟩ :=
      ascending_iff.mpr ⟨((zero_at f).le_iff huniform).mpr (Nat.zero_le _), hle⟩
    exact ⟨q, hq, (hq.lt_iff (one_at f)).mp hlt, (huniform.le_iff hq).mp hle⟩
  · cases h

/-- The probability of a lie is rounded down to a number that is not less than the last step below
    one. -/
theorem oddsUp_at (hp : p.At q) (hq : q < f.one) : ∃ r, 0 < r ∧ f.spacing (f.one - 1) ≤ f.units r ∧
    f.units r + f.units q ≤ twoPow f.unitBits ∧
      (oddsUp p).At (f.upward (f.units q * twoPow f.unitBits) (f.units r)) := by
  have hroom : f.nearest (2 * f.units f.one) 1 < f.infinity := by
    have htwo := Format.nearest_units (f := f) Nat.one_pos f.one_add_lt_infinity.le
    rw [Format.units_one_add, Nat.mul_one] at htwo
    rw [f.units_one, htwo]
    exact f.one_add_lt_infinity
  obtain ⟨r, hr, hsum, hlast⟩ := subDown_at (one_at f) hp f.one_lt_infinity
    (hq.trans f.one_lt_infinity) hq.le hroom
  have hstep : f.spacing (f.one - 1) ≤ f.units r := by
    have hexact := Format.units_floorPosition_mul (f := f) (h := 1) (twoPow_pos _)
      ((f.one - 1) / twoPow f.fractionBits - 1)
    rw [Nat.one_mul] at hexact
    have hbelow := f.units_strictMono.monotone (Nat.le_sub_one_of_lt hq)
    have hpred := f.units_one_pred.1
    rw [← f.units_one] at hpred
    refine hexact.symm.trans_le (f.units_strictMono.monotone (hlast _ ?_))
    rw [hexact]
    change f.spacing (f.one - 1) + _ ≤ _
    omega
  have hr0 : 0 < r := by
    rw [Nat.pos_iff_ne_zero]
    rintro rfl
    rw [f.units_zero] at hstep
    exact absurd hstep (Nat.not_le.mpr (f.spacing_pos _))
  obtain ⟨hle, heq⟩ := hr.eq_positive hr0
  have hrf : r < f.infinity := by
    refine f.one_lt_infinity.trans_le' (f.units_strictMono.le_iff_le.mp ?_)
    omega
  have hodds := hp.divUp_at hle hr0 hrf
  rw [Format.quotientUp_of_lt (hq.trans f.one_lt_infinity)] at hodds
  unfold oddsUp
  rw [heq]
  exact ⟨r, hr0, hstep, f.units_one ▸ hsum, hodds⟩

theorem one_le_oddsUp (h : checkProbability p 2 = .ok ()) : one.le (oddsUp p) = true := by
  obtain ⟨q, hp, hq, hle⟩ := of_checkProbability_eq_ok Nat.two_pos (by decide) h
  obtain ⟨r, hr0, -, hsum, hodds⟩ := oddsUp_at hp hq
  rw [(one_at f).le_iff hodds]
  rw [Format.units_nearest_of_le (by cases f <;> decide)] at hle
  have hhalf := Format.le_two_mul_units hle
  refine (Format.le_nearest (Format.units_pos hr0) f.one_le_infinity ?_).trans
    (f.nearest_le_upward _ _)
  rw [f.units_one, Nat.mul_comm]
  exact Nat.mul_le_mul_right _ (by omega)

/-- The number of the other categories is rounded up, if it is rounded at all. -/
theorem lies_at (f : Format) (hn : 1 ≤ n) (hmax : (n : Int) ≤ IntType.usize.max) :
    ∃ u, ((ofInt f n).subUp one).At u ∧ u < f.infinity ∧
      f.units (f.nearest (n * twoPow f.unitBits) 1) ≤ twoPow f.unitBits + f.units u ∧
      u ≤ f.nearest (n * twoPow f.unitBits) 1 := by
  have hwhole := ofInt_at f n
  have hfinite := hwhole.isFinite_iff.mp (isFinite_ofInt hmax)
  have hone : f.one ≤ f.nearest (n * twoPow f.unitBits) 1 := by
    rw [← f.units_strictMono.le_iff_le, f.units_one]
    exact Format.twoPow_le_units_nearest hn
  obtain ⟨u, hlies, hu, hleast⟩ := subUp_at hwhole (one_at f) hfinite f.one_lt_infinity hone
  rw [f.units_one] at hu
  have hle := hleast _ (Nat.le_add_left _ _)
  exact ⟨u, hlies, hle.trans_lt hfinite, hu, hle⟩

/-- The odds of the truth against one of the other categories. -/
theorem one_le_oddsUp_mulUp (hn : 2 ≤ n) (hmax : (n : Int) ≤ IntType.usize.max)
    (h : checkProbability p n = .ok ()) :
    one.le ((oddsUp p).mulUp ((ofInt f n).subUp one)) = true := by
  obtain ⟨q, hp, hq, hle⟩ := of_checkProbability_eq_ok (by omega) hmax h
  obtain ⟨r, hr0, -, hsum, hodds⟩ := oddsUp_at hp hq
  have hmax' : n ≤ twoPow 64 := by
    have : IntType.usize.max = twoPow 64 - 1 := by decide
    omega
  obtain ⟨t, ht, ht2, ht64⟩ := Format.exists_units_whole (f := f) hn hmax'
  obtain ⟨u, hlies, huf, hu, -⟩ := lies_at f (by omega) hmax
  rw [ht] at hu hle
  rcases hodds.le_infinity.eq_or_lt with hinf | hfinite
  · have hu0 : 0 < u := by
      rw [Nat.pos_iff_ne_zero]
      rintro rfl
      have := Nat.mul_le_mul_right (twoPow f.unitBits) ht2
      have := twoPow_pos f.unitBits
      rw [f.units_zero] at hu
      omega
    rw [hinf] at hodds
    rw [hodds.eq_infinity, infinity_mulUp hlies hu0, (one_at f).le_iff (infinity_at f)]
    exact f.one_lt_infinity.le
  · rw [(one_at f).le_iff (hodds.mulUp_at hlies hfinite huf)]
    exact Format.one_le_odds ht2 ht64 hq hle hr0 hsum hu hfinite

end Measurement
end DifferentialPrivacy
