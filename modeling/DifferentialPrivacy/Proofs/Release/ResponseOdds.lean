import DifferentialPrivacy.Proofs.Accounting.ReportedLoss
import DifferentialPrivacy.Proofs.Number.ElementaryAccuracy
import DifferentialPrivacy.Proofs.Release.ResponseLoss
import DifferentialPrivacy.Proofs.Release.ResponsePrivacy

set_option autoImplicit false

/-!
# Losses of randomized response and the odds of its answers

With the probability `p` for the truth and `p'` for each lie, the loss has to be a bound on `ln (p / p')`
and on `ln (p' / p)`. It is one on the former. A lie may be the more likely answer as well, if `p` is
the reciprocal of the number of categories and was rounded down: a positive loss covers this, but there
are such `p` with a loss of zero.
-/
namespace DifferentialPrivacy

namespace Format

variable {f : Format} {p r t u x : Nat}

/-! ### Odds in units -/

/-- The positions of amounts beyond all odds. -/
theorem exists_units_scaled (f : Format) {k : Nat} (hk : k ≤ 24) :
    ∃ w < f.infinity, f.units w = f.lastConsecutive * (twoPow k * twoPow f.unitBits) := by
  have hexact := units_floorPosition_mul (f := f) (h := f.lastConsecutive) le_rfl (k + f.unitBits)
  rw [twoPow_add] at hexact
  refine ⟨_, f.units_strictMono.lt_iff_lt.mp (hexact.trans_lt ?_), hexact⟩
  have hroom : f.lastConsecutive * (twoPow 24 * twoPow f.unitBits) < f.units f.infinity := by
    rw [units_infinity, lastConsecutive, ← twoPow_add, ← twoPow_add]
    exact Nat.pow_lt_pow_right Nat.one_lt_two (by cases f <;> decide)
  refine hroom.trans_le' (Nat.mul_le_mul_left _ (Nat.mul_le_mul_right _ ?_))
  exact twoPow_le_twoPow hk

section Odds

variable (hr0 : 0 < r) (hstep : f.spacing (f.one - 1) ≤ f.units r)
  (hr : f.units r + f.units p ≤ twoPow f.unitBits)
include hr0 hstep hr

theorem units_odds_le : f.upward (f.units p * twoPow f.unitBits) (f.units r) < f.infinity ∧
    f.units (f.upward (f.units p * twoPow f.unitBits) (f.units r)) ≤
      f.lastConsecutive * twoPow f.unitBits := by
  obtain ⟨w, hw, hunits⟩ := f.exists_units_scaled (Nat.zero_le 24)
  have hle : f.upward (f.units p * twoPow f.unitBits) (f.units r) ≤ w := by
    apply upward_le (units_pos hr0)
    have hgap := f.units_one_pred.2
    have hlast := Nat.mul_le_mul_right f.lastConsecutive hstep
    rw [hunits, show twoPow 0 = 1 from rfl, Nat.one_mul]
    calc
      f.units p * twoPow f.unitBits ≤ f.units r * f.lastConsecutive * twoPow f.unitBits :=
        Nat.mul_le_mul_right _ (by omega)
      _ = _ := by ring
  refine ⟨hle.trans_lt hw, ?_⟩
  have hmono := f.units_strictMono.monotone hle
  rwa [hunits, show twoPow 0 = 1 from rfl, Nat.one_mul] at hmono

/-- The odds are at least `p / (1 - p)`. -/
theorem le_units_odds (hlarge : f.remainderBound ≤ f.units p) :
    f.units p * twoPow f.unitBits +
      f.units (f.upward (f.units p * twoPow f.unitBits) (f.units r)) * f.units p ≤
      f.units (f.upward (f.units p * twoPow f.unitBits) (f.units r)) * twoPow f.unitBits := by
  have hodds := (le_units_upward_iff (units_pos hr0) (units_odds_le hr0 hstep hr).1).mpr
    (not_remainderVanishes_quotient hlarge hr0)
  have hscaled := Nat.mul_le_mul_left
    (f.units (f.upward (f.units p * twoPow f.unitBits) (f.units r))) hr
  rw [Nat.mul_add] at hscaled
  omega

end Odds

/-- The product of odds `o` and lies `u`, rounded up. -/
theorem le_units_odds_mul {o : Nat} (hlarge : f.remainderBound ≤ f.units o)
    (hbound : f.units o ≤ f.lastConsecutive * twoPow f.unitBits)
    (hlow : twoPow f.unitBits ≤ f.units u) (hhigh : f.units u ≤ twoPow 24 * twoPow f.unitBits) :
    f.upward (f.units o * f.units u) (twoPow f.unitBits) < f.infinity ∧
      f.units o * f.units u ≤
        f.units (f.upward (f.units o * f.units u) (twoPow f.unitBits)) * twoPow f.unitBits := by
  have hunit := twoPow_pos f.unitBits
  obtain ⟨w, hw, hunits⟩ := f.exists_units_scaled (Nat.le_refl 24)
  have hfinite : f.upward (f.units o * f.units u) (twoPow f.unitBits) < f.infinity := by
    refine (upward_le hunit ?_).trans_lt hw
    rw [hunits]
    calc
      _ ≤ f.lastConsecutive * twoPow f.unitBits * (twoPow 24 * twoPow f.unitBits) :=
        Nat.mul_le_mul hbound hhigh
      _ = _ := by ring
  exact ⟨hfinite, (le_units_upward_iff hunit hfinite).mpr
    (not_remainderVanishes_product (Nat.mul_le_mul hlarge hlow))⟩

/-- Odds `o` that cover those against one lie cover those against each of several once they are
    multiplied. -/
theorem mul_odds_cover {unit q o x others : Nat} (hq : q ≤ unit)
    (hcover : q * unit + o * q ≤ o * unit) (hx : others * o ≤ x) :
    others * (q * unit) + x * q ≤ x * unit := by
  obtain ⟨lie, rfl⟩ := Nat.exists_eq_add_of_le hq
  have hlie : q * (q + lie) ≤ o * lie := by linarith
  calc
    _ ≤ others * (o * lie) + x * q := Nat.add_le_add_right (Nat.mul_le_mul_left _ hlie) _
    _ = others * o * lie + x * q := by ring
    _ ≤ x * lie + x * q := Nat.add_le_add_right (Nat.mul_le_mul_right _ hx) _
    _ = _ := by ring

/-- Odds of `p` against a lie that are above one cover the odds of a lie against `p` as well, which
    are never more than a step above one. -/
theorem odds_cover_reverse (ht : 2 ≤ t) (hmax : t ≤ twoPow 64) (hp : p < f.one)
    (h : f.nearest (twoPow f.unitBits * twoPow f.unitBits) (t * twoPow f.unitBits) ≤ p)
    (hx : f.one < x) :
    twoPow f.unitBits * (twoPow f.unitBits - f.units p) ≤ f.units x * ((t - 1) * f.units p) := by
  have hclose := reciprocal_close ht hmax hp h
  have hbelow := f.units_strictMono hp
  have habove : f.units (f.one + 1) ≤ f.units x := f.units_strictMono.monotone hx
  have hstep : f.units (f.one + 1) * f.lastConsecutive =
      twoPow f.unitBits * (f.lastConsecutive + 2) := by
    have hspan := f.spacing_one_mul
    rw [units_succ, units_one, lastConsecutive, twoPow_succ]
    linarith
  have hlast : 2 ≤ f.lastConsecutive := by cases f <;> decide
  rw [units_one] at hbelow
  obtain ⟨lie, hlie⟩ := Nat.exists_eq_add_of_le hbelow.le
  obtain ⟨others, rfl⟩ : ∃ others, t = others + 1 := ⟨t - 1, by omega⟩
  have hratio : lie * f.lastConsecutive ≤ others * f.units p * (f.lastConsecutive + 2) := by
    rw [hlie] at hclose
    apply Nat.le_of_mul_le_mul_right _ (Nat.zero_lt_of_lt hlast)
    have hscaled := Nat.mul_le_mul_right (f.lastConsecutive + 2)
      (by linarith : lie * f.lastConsecutive ≤ others * f.units p * f.lastConsecutive + lie)
    have hlie' := Nat.mul_le_mul_left lie hlast
    linarith
  rw [show twoPow f.unitBits - f.units p = lie by omega, Nat.add_sub_cancel]
  apply Nat.le_of_mul_le_mul_right _ (Nat.zero_lt_of_lt hlast)
  calc
    twoPow f.unitBits * lie * f.lastConsecutive = twoPow f.unitBits * (lie * f.lastConsecutive) := by
      ring
    _ ≤ twoPow f.unitBits * (others * f.units p * (f.lastConsecutive + 2)) :=
      Nat.mul_le_mul_left _ hratio
    _ = f.units (f.one + 1) * f.lastConsecutive * (others * f.units p) := by rw [hstep]; ring
    _ ≤ f.units x * f.lastConsecutive * (others * f.units p) := by gcongr
    _ = f.units x * (others * f.units p) * f.lastConsecutive := by ring

end Format

namespace Measurement
open Binary

variable {f : Format} {p : Binary f} {n q : Nat}

/-! ### The odds as they are computed -/

theorem units_whole (hmax : n < twoPow 24) :
    f.units (f.nearest (n * twoPow f.unitBits) 1) = n * twoPow f.unitBits :=
  Format.units_nearest_of_le
    (hmax.le.trans (twoPow_le_twoPow (by cases f <;> decide)))

theorem le_usize_of_lt (hmax : n < twoPow 24) : (n : Int) ≤ IntType.usize.max := by
  have : IntType.usize.max = twoPow 64 - 1 := by decide
  have : twoPow 24 < twoPow 64 := by decide
  omega

/-- Of the probabilities that are accepted, only the rounded reciprocal itself can be too small. -/
theorem eq_uniform_of_lt (hn : 2 ≤ n) (hmax : n < twoPow 24) (h : checkProbability p n = .ok ())
    (hlt : p.value < 1 / n) : p.eq (one / ofInt f n) = true := by
  have huniform := uniform_at f (by omega) (le_usize_of_lt hmax)
  obtain ⟨q, hp, hq, hle⟩ := of_checkProbability_eq_ok (by omega) (le_usize_of_lt hmax) h
  rw [units_whole hmax] at huniform hle
  have hunits : f.units q * n < twoPow f.unitBits := by
    have hn' : (0 : ℚ) < n := Nat.cast_pos.mpr (by omega)
    rw [hp.value_eq, div_lt_div_iff₀ (twoPow_unitBits_pos f) hn', one_mul] at hlt
    exact_mod_cast hlt
  rw [hp.eq_iff huniform]
  refine Nat.le_antisymm (Format.le_nearest ?_ hp.le_infinity ?_) hle
  · exact Nat.mul_pos (by omega) (twoPow_pos _)
  · rw [← Nat.mul_assoc]
    exact Nat.mul_le_mul_right _ hunits.le

/-- The odds of the truth against any one lie, by which all losses are covered. -/
theorem oddsUp_mulUp_at (hn : 2 ≤ n) (hmax : n < twoPow 24) (h : checkProbability p n = .ok ()) :
    ∃ q x, p.At q ∧ q < f.one ∧
      f.nearest (twoPow f.unitBits * twoPow f.unitBits) (n * twoPow f.unitBits) ≤ q ∧
      ((oddsUp p).mulUp ((ofInt f n).subUp one)).At x ∧ f.one ≤ x ∧ x < f.infinity ∧
      (n - 1) * (f.units q * twoPow f.unitBits) + f.units x * f.units q ≤
        f.units x * twoPow f.unitBits := by
  have hlimit : n ≤ twoPow 64 := hmax.le.trans (twoPow_le_twoPow (by decide))
  have husize := le_usize_of_lt hmax
  have hwholeUnits := units_whole (f := f) hmax
  obtain ⟨q, hp, hq, hle⟩ := of_checkProbability_eq_ok (by omega) husize h
  rw [hwholeUnits] at hle
  obtain ⟨r, hr0, hstep, hsum, hodds⟩ := oddsUp_at hp hq
  have hone := one_le_oddsUp_mulUp hn husize h
  obtain ⟨u, hlies, huf, hu, hun⟩ := lies_at f (by omega) husize
  have huUnits := f.units_strictMono.monotone hun
  rw [hwholeUnits] at hu huUnits
  have hlarge := Format.remainderBound_le_of_reciprocal hn hlimit hq hle
  obtain ⟨hfinite, hbound⟩ := Format.units_odds_le hr0 hstep hsum
  have hcover := Format.le_units_odds hr0 hstep hsum hlarge
  have hx := hodds.mulUp_at hlies hfinite huf
  generalize f.upward (f.units q * twoPow f.unitBits) (f.units r) = o at *
  have hunit := twoPow_pos f.unitBits
  have hqo : f.units q ≤ f.units o := Nat.le_of_mul_le_mul_right (by omega) hunit
  obtain ⟨others, rfl⟩ : ∃ others, n = others + 1 := ⟨n - 1, by omega⟩
  have hothers : others * twoPow f.unitBits ≤ f.units u := by
    rw [Nat.succ_mul] at hu
    omega
  obtain ⟨hxf, hproduct⟩ := Format.le_units_odds_mul (hlarge.trans hqo) hbound
    ((Nat.le_mul_of_pos_left _ (by omega)).trans hothers)
    (huUnits.trans (Nat.mul_le_mul_right _ hmax.le))
  refine ⟨q, _, hp, hq, hle, hx, ((one_at f).le_iff hx).mp hone, hxf, ?_⟩
  generalize f.upward (f.units o * f.units u) (twoPow f.unitBits) = x at *
  have hxo : others * f.units o ≤ f.units x := by
    apply Nat.le_of_mul_le_mul_right _ hunit
    calc
      others * f.units o * twoPow f.unitBits = f.units o * (others * twoPow f.unitBits) := by ring
      _ ≤ f.units o * f.units u := Nat.mul_le_mul_left _ hothers
      _ ≤ _ := hproduct
  rw [Nat.add_sub_cancel]
  exact Format.mul_odds_cover (by omega) hcover hxo

/-- With two categories the odds are not multiplied. -/
theorem oddsUp_two_at (h : checkProbability p 2 = .ok ()) :
    ∃ q x, p.At q ∧ q < f.one ∧
      f.nearest (twoPow f.unitBits * twoPow f.unitBits) (2 * twoPow f.unitBits) ≤ q ∧
      (oddsUp p).At x ∧ f.one ≤ x ∧ x < f.infinity ∧
      (2 - 1) * (f.units q * twoPow f.unitBits) + f.units x * f.units q ≤
        f.units x * twoPow f.unitBits := by
  obtain ⟨q, hp, hq, hle⟩ := of_checkProbability_eq_ok Nat.two_pos (by decide) h
  rw [Format.units_nearest_of_le (by cases f <;> decide)] at hle
  obtain ⟨r, hr0, hstep, hsum, hodds⟩ := oddsUp_at hp hq
  have hlarge := Format.remainderBound_le_of_reciprocal le_rfl (by decide) hq hle
  refine ⟨q, _, hp, hq, hle, hodds, ((one_at f).le_iff hodds).mp (one_le_oddsUp h),
    (Format.units_odds_le hr0 hstep hsum).1, ?_⟩
  rw [show 2 - 1 = 1 from rfl, Nat.one_mul]
  exact Format.le_units_odds hr0 hstep hsum hlarge

/-- The probability of each lie. -/
def lieChance (p : ℚ) (n : Nat) : ℚ := (1 - p) / (n - 1)

/-- The loss is finite, and as a logarithm it is a bound on a ratio. -/
def ExpCovers (l : Binary f) (ratio : ℚ) : Prop :=
  l.isFinite = true ∧ (ratio : ℝ) ≤ Real.exp l.value

theorem value_lt_one (hp : p.At q) (hq : q < f.one) : p.value < 1 := by
  rw [hp.value_eq, div_lt_one (twoPow_unitBits_pos f), ← f.units_one]
  exact_mod_cast f.units_strictMono hq

section Loss

variable [Elementary] (hlib : Elementary.LnAccurate f) {x : Nat} {odds : Binary f} (hn : 2 ≤ n)
  (hp : p.At q) (hq : q < f.one) (hx : odds.At x) (h1 : f.one ≤ x) (hxf : x < f.infinity)
include hlib hn hp hq hx h1 hxf

theorem lnUp_covers (hcover : (n - 1) * (f.units q * twoPow f.unitBits) + f.units x * f.units q ≤
    f.units x * twoPow f.unitBits) : ExpCovers odds.lnUp (p.value / lieChance p.value n) := by
  obtain ⟨l, hl, hlf, -, hbound⟩ := lnUp_at hlib hx h1 hxf
  refine ⟨hl.isFinite_iff.mpr hlf, le_trans (Rat.cast_le.mpr ?_) hbound⟩
  have hunit := twoPow_unitBits_pos f
  have hbelow := value_lt_one hp hq
  have hothers : (1 : ℚ) ≤ n - 1 := by
    have : (2 : ℚ) ≤ n := Nat.ofNat_le_cast.mpr hn
    linarith
  have hvalues : (n - 1) * p.value + odds.value * p.value ≤ odds.value := by
    have hcast : ((n - 1 : ℚ) * (f.units q * twoPow f.unitBits) + f.units x * f.units q) ≤
        f.units x * twoPow f.unitBits := by
      rw [← Nat.cast_pred (by omega)]
      exact_mod_cast hcover
    rw [hp.value_eq, hx.value_eq, ← sub_nonneg]
    have hsub := div_nonneg (sub_nonneg.mpr hcast) (mul_pos hunit hunit).le
    refine hsub.trans_eq ?_
    field_simp
  unfold lieChance
  rw [div_div_eq_mul_div, div_le_iff₀ (by linarith)]
  linarith

theorem lnUp_covers_reverse_iff (hmax : n ≤ twoPow 64)
    (hle : f.nearest (twoPow f.unitBits * twoPow f.unitBits) (n * twoPow f.unitBits) ≤ q) :
    ExpCovers odds.lnUp (lieChance p.value n / p.value) ↔
      1 / (n : ℚ) ≤ p.value ∨ zero.lt odds.lnUp = true := by
  obtain ⟨l, hl, hlf, hpos, hbound⟩ := lnUp_at hlib hx h1 hxf
  have hunit := twoPow_unitBits_pos f
  have hbelow := value_lt_one hp hq
  have hcount : (2 : ℚ) ≤ n := Nat.ofNat_le_cast.mpr hn
  have hothers : (0 : ℚ) < n - 1 := by linarith
  have hlarge := Format.remainderBound_le_of_reciprocal hn hmax hq hle
  have hpvalue : 0 < p.value := by
    rw [hp.value_eq]
    exact div_pos (Nat.cast_pos.mpr ((twoPow_pos _).trans_le hlarge)) hunit
  have hone : (1 : ℚ) ≤ odds.value := by
    rw [hx.value_eq, one_le_div hunit, ← f.units_one]
    exact_mod_cast f.units_strictMono.monotone h1
  have hfair : lieChance p.value n ≤ p.value ↔ 1 / (n : ℚ) ≤ p.value := by
    unfold lieChance
    rw [div_le_iff₀ hothers, div_le_iff₀ (by linarith)]
    constructor <;> intro h <;> linarith
  rw [(zero_at f).lt_iff hl]
  constructor
  · rintro ⟨-, hcovers⟩
    by_contra hneither
    obtain ⟨hunfair, hzero⟩ := not_or.mp hneither
    obtain rfl : l = 0 := by omega
    rw [hl.value_eq, f.units_zero, Nat.cast_zero, zero_div, Rat.cast_zero, Real.exp_zero] at hcovers
    have hratio : lieChance p.value n / p.value ≤ 1 := by exact_mod_cast hcovers
    exact hunfair (hfair.mp ((div_le_one hpvalue).mp hratio))
  · intro h
    refine ⟨hl.isFinite_iff.mpr hlf, le_trans (Rat.cast_le.mpr ?_) hbound⟩
    rcases h with h | h
    · exact ((div_le_one hpvalue).mpr (hfair.mpr h)).trans hone
    · have hcover := Format.odds_cover_reverse hn hmax hq hle (hpos.mp h)
      unfold lieChance
      rw [div_div, div_le_iff₀ (mul_pos hothers hpvalue)]
      have hcast : (twoPow f.unitBits * (twoPow f.unitBits - f.units q) : ℚ) ≤
          f.units x * ((n - 1) * f.units q) := by
        have hle := f.units_strictMono.monotone hq.le
        rw [f.units_one] at hle
        rw [← Nat.cast_sub hle, ← Nat.cast_pred (by omega)]
        exact_mod_cast hcover
      rw [hp.value_eq, hx.value_eq, ← sub_nonneg]
      have hsub := div_nonneg (sub_nonneg.mpr hcast) (mul_pos hunit hunit).le
      refine hsub.trans_eq ?_
      field_simp

end Loss

/-! ### Reported losses -/

theorem map_discreteMap {M : Measurement .discrete (.maxDivergence f)} {loss : Binary f}
    (hM : M.privacyMap = discreteMap loss) {d : Integer .u32} (hd : d.val ≠ 0) :
    M.map d = .ok loss := by
  have hlegal : Metric.discrete.Legal d :=
    NumType.checkDistance_eq_ok_iff.mpr ⟨d.val, rfl, d.min_le⟩
  rw [map_of_legal hlegal, hM]
  exact congrArg Except.ok (if_neg hd)

theorem checkProbability_eq_ok (h : ((one / ofInt f n).le p && p.lt one) = true) :
    checkProbability p n = .ok () := if_pos h

section Built

variable [Elementary] {caps : Capabilities} (hcaps : .contrib ∈ caps)
include hcaps

theorem exists_randomizedResponse (a : Atom) {categories : Categories}
    (hn : 2 ≤ categories.values.length) (hp : checkProbability p categories.values.length = .ok ()) :
    ∃ M, randomizedResponse caps a categories f p = .ok M ∧ M.privacyMap = discreteMap
      ((oddsUp p).mulUp ((ofInt f categories.values.length).subUp one)).lnUp :=
  ⟨_, randomizedResponse_eq_ok_iff.mpr ⟨require_contrib_eq_ok_iff.mpr hcaps, hn, hp, rfl⟩, rfl⟩

theorem exists_randomizedResponseBool (hp : checkProbability p 2 = .ok ()) :
    ∃ M, randomizedResponseBool caps f p = .ok M ∧ M.privacyMap = discreteMap (oddsUp p).lnUp :=
  ⟨_, randomizedResponseBool_eq_ok_iff.mpr ⟨require_contrib_eq_ok_iff.mpr hcaps, hp, rfl⟩, rfl⟩

end Built

end Measurement

open Measurement

/-- The loss that randomized response reports of a change is finite and covers the odds `p / p'`. It
    covers the odds `p' / p` as well, unless it is zero and `p` is below the reciprocal of the number of
    categories, which it can only be as the rounded reciprocal. With two categories it covers both. -/
theorem responseLoss_covers_odds [Elementary] {f : Format} (hlib : Elementary.LnAccurate f)
    {caps : Capabilities} (hcaps : .contrib ∈ caps) {p : Binary f} :
    (∀ {a : Atom} {categories : Categories} {n : Nat}, categories.values.length = n → 2 ≤ n →
      n < 2 ^ 24 → checkProbability p n = .ok () →
      ∃ M l, randomizedResponse caps a categories f p = .ok M ∧
        (∀ d : Integer .u32, d.val ≠ 0 → M.map d = .ok l) ∧
        ExpCovers l (p.value / lieChance p.value n) ∧
        (ExpCovers l (lieChance p.value n / p.value) ↔
          1 / (n : ℚ) ≤ p.value ∨ Binary.zero.lt l = true) ∧
        (p.value < 1 / n → p.eq (.one / .ofInt f n) = true)) ∧
    (checkProbability p 2 = .ok () →
      ∃ M l, randomizedResponseBool caps f p = .ok M ∧
        (∀ d : Integer .u32, d.val ≠ 0 → M.map d = .ok l) ∧
        ExpCovers l (p.value / lieChance p.value 2) ∧
        ExpCovers l (lieChance p.value 2 / p.value)) := by
  constructor
  · rintro a categories _ rfl hn hmax hcheck
    obtain ⟨M, hM, hmap⟩ := exists_randomizedResponse hcaps a hn hcheck
    obtain ⟨q, x, hp, hq, hle, hx, h1, hxf, hcover⟩ := oddsUp_mulUp_at hn hmax hcheck
    exact ⟨M, _, hM, fun d => map_discreteMap hmap, lnUp_covers hlib hn hp hq hx h1 hxf hcover,
      lnUp_covers_reverse_iff hlib hn hp hq hx h1 hxf (hmax.le.trans (by decide)) hle,
      eq_uniform_of_lt hn hmax hcheck⟩
  · intro hcheck
    obtain ⟨M, hM, hmap⟩ := exists_randomizedResponseBool hcaps hcheck
    obtain ⟨q, x, hp, hq, hle, hx, h1, hxf, hcover⟩ := oddsUp_two_at hcheck
    refine ⟨M, _, hM, fun d => map_discreteMap hmap, lnUp_covers hlib le_rfl hp hq hx h1 hxf hcover,
      (lnUp_covers_reverse_iff hlib le_rfl hp hq hx h1 hxf (by decide) hle).mpr (Or.inl ?_)⟩
    have hhalf := Format.le_two_mul_units hle
    rw [hp.value_eq, Nat.cast_ofNat, div_le_div_iff₀ two_pos (Binary.twoPow_unitBits_pos f), one_mul,
      mul_comm]
    exact_mod_cast hhalf

/-- Even odds of the truth and a lie, among three colours and for a bit. -/
theorem responseLoss_covers_odds_half :
    @Elementary.LnAccurate .exact .binary64 ∧
    checkProbability (.ofBits .binary64 0x3fe0000000000000) 3 = .ok () ∧
    checkProbability (.ofBits .binary64 0x3fe0000000000000) 2 = .ok () ∧
    (∃ M l, @randomizedResponse .exact .all .string ResponsePrivacy.colours .binary64
        (.ofBits .binary64 0x3fe0000000000000) = .ok M ∧ M.map (.clamp _ 1) = .ok l ∧
      ExpCovers l ((Binary.ofBits .binary64 0x3fe0000000000000).value /
        lieChance (Binary.ofBits .binary64 0x3fe0000000000000).value 3)) ∧
    ∃ M l, @randomizedResponseBool .exact .all .binary64 (.ofBits .binary64 0x3fe0000000000000) =
        .ok M ∧ M.map (.clamp _ 1) = .ok l ∧
      ExpCovers l (lieChance (Binary.ofBits .binary64 0x3fe0000000000000).value 2 /
        (Binary.ofBits .binary64 0x3fe0000000000000).value) := by
  let _ := Elementary.exact
  have hlib := Elementary.exact_lnAccurate .binary64
  have hthree : checkProbability (.ofBits .binary64 0x3fe0000000000000) 3 = .ok () :=
    checkProbability_eq_ok (by decide +kernel)
  have htwo : checkProbability (.ofBits .binary64 0x3fe0000000000000) 2 = .ok () :=
    checkProbability_eq_ok (by decide +kernel)
  obtain ⟨hcolours, hbit⟩ := responseLoss_covers_odds hlib
    (require_contrib_eq_ok_iff.mp (rfl : Capabilities.all.require [.contrib] = .ok ()))
    (p := .ofBits .binary64 0x3fe0000000000000)
  obtain ⟨M, l, hM, hl, hcovers, -⟩ := hcolours (a := .string)
    (rfl : ResponsePrivacy.colours.values.length = 3) (by decide) (by decide) hthree
  obtain ⟨M', l', hM', hl', -, hcovers'⟩ := hbit htwo
  exact ⟨hlib, hthree, htwo, ⟨M, l, hM, hl _ (by decide), hcovers⟩, M', l', hM', hl' _ (by decide),
    hcovers'⟩

/-- The rounded third is below the exact one, and its odds against each of two lies come out as one. -/
theorem responseLoss_misses_third :
    checkProbability (.ofBits .binary64 0x3fd5555555555555) 3 = .ok () ∧
    ∃ M, @randomizedResponse .exact .all .string ResponsePrivacy.colours .binary64
        (.ofBits .binary64 0x3fd5555555555555) = .ok M ∧ M.map (.clamp _ 1) = .ok .zero ∧
      ¬ExpCovers (.zero : Binary .binary64)
        (lieChance (Binary.ofBits .binary64 0x3fd5555555555555).value 3 /
          (Binary.ofBits .binary64 0x3fd5555555555555).value) := by
  let _ := Elementary.exact
  have hcheck : checkProbability (.ofBits .binary64 0x3fd5555555555555) 3 = .ok () :=
    checkProbability_eq_ok (by decide +kernel)
  obtain ⟨M, hM, hmap⟩ := exists_randomizedResponse
    (require_contrib_eq_ok_iff.mp (rfl : Capabilities.all.require [.contrib] = .ok ())) .string
    (by decide : 2 ≤ ResponsePrivacy.colours.values.length) hcheck
  have hodds : (((oddsUp (.ofBits .binary64 0x3fd5555555555555)).mulUp
      ((Binary.ofInt .binary64 (3 : Nat)).subUp .one)).eq .one) = true := by decide +kernel
  refine ⟨hcheck, M, hM, ?_, ?_⟩
  · rw [map_discreteMap hmap (by decide)]
    exact congrArg Except.ok (if_pos hodds)
  · rintro ⟨-, hcovers⟩
    have hpos : 0 < (Binary.ofBits .binary64 0x3fd5555555555555).value :=
      Binary.value_pos_of_zero_lt (by decide +kernel)
    have hbelow : 3 * (Binary.ofBits .binary64 0x3fd5555555555555).value < 1 := by
      have hunits : 3 * (Binary.ofBits .binary64 0x3fd5555555555555).units <
          (twoPow Format.binary64.unitBits : Int) := by decide +kernel
      unfold Binary.value
      rw [mul_div_assoc', div_lt_one (Binary.twoPow_unitBits_pos _)]
      exact_mod_cast hunits
    rw [Binary.value_zero, Rat.cast_zero, Real.exp_zero] at hcovers
    have hratio : lieChance (Binary.ofBits .binary64 0x3fd5555555555555).value 3 /
        (Binary.ofBits .binary64 0x3fd5555555555555).value ≤ 1 := by exact_mod_cast hcovers
    unfold lieChance at hratio
    rw [div_le_one hpos, div_le_iff₀ (by norm_num)] at hratio
    norm_num at hratio
    linarith

end DifferentialPrivacy
