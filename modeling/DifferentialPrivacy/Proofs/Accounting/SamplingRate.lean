import DifferentialPrivacy.Number.Machine
import DifferentialPrivacy.Proofs.Accounting.MappedLoss
import DifferentialPrivacy.Proofs.Number.LeastBounds
import Mathlib.Tactic.FieldSimp

set_option autoImplicit false

/-!
# Sampling rates

The sizes of sample and population are rounded to nearest on the way into a format, and their quotient
is rounded up. It is the least bound on the quotient of the rounded sizes, so it is never below the
exact rate where the format has both sizes. From the second size beyond the consecutive integers on, a
sample that is rounded down has a rate that is too small, if only by a factor close to one.
-/
namespace DifferentialPrivacy

/-! ### The error of the nearest position -/

namespace Format

variable {f : Format} {num : Nat}

/-- An amount and its nearest position differ by no more than half a spacing. -/
theorem nearest_error (hnum : twoPow f.fractionBits ≤ num) (h : f.nearest num 1 < f.infinity) :
    num * f.lastConsecutive ≤ f.units (f.nearest num 1) * (f.lastConsecutive + 1) ∧
      f.units (f.nearest num 1) * f.lastConsecutive ≤ num * (f.lastConsecutive + 1) := by
  obtain ⟨low, hle, hlt, hhalves⟩ := f.nearest_halves num Nat.one_pos
  have hfirst : f.units (twoPow f.fractionBits) = twoPow f.fractionBits := by
    cases f <;> decide
  have hlow : twoPow f.fractionBits < low + 1 := by
    apply f.units_strictMono.lt_iff_lt.mp
    omega
  have hwide := spacing_le (Nat.lt_succ_iff.mp hlow)
  have hsucc := f.units_succ low
  rw [hsucc] at hlt hhalves
  unfold lastConsecutive
  rw [twoPow_succ]
  generalize f.spacing low = s at *
  generalize twoPow f.fractionBits = t at *
  have hbelow := Nat.mul_le_mul_left (2 * t) hle
  have habove := Nat.mul_le_mul_left (2 * t) hlt.le
  rcases hhalves with ⟨hn, hmiddle⟩ | ⟨hn, hmiddle⟩
  · have heq : f.nearest num 1 = low := by omega
    have hscaled := Nat.mul_le_mul_left t hmiddle
    rw [heq]
    constructor <;> linarith
  · have heq : f.nearest num 1 = low + 1 := by omega
    have hscaled := Nat.mul_le_mul_left t hmiddle
    rw [heq, hsucc]
    constructor <;> linarith

end Format

namespace Binary

variable {f : Format} {n N : Nat}

/-! ### Sizes as numbers of a format -/

theorem isFinite_ofInt (h : (n : Int) ≤ IntType.usize.max) : (ofInt f n).isFinite = true := by
  have hle : n ≤ twoPow 64 := by
    have hmax : IntType.usize.max = twoPow 64 - 1 := by decide
    omega
  have hlast : (f.unitBits - f.fractionBits + 64 + 1) * twoPow f.fractionBits < f.infinity := by
    cases f <;> decide
  rw [(ofInt_at f n).isFinite_iff]
  refine (Format.nearest_le Nat.one_pos ?_).trans_lt hlast
  rw [f.units_twoPow, Nat.mul_one]
  exact Nat.mul_le_mul_right _ hle

theorem zero_le_ofInt (f : Format) (n : Nat) : zero.le (ofInt f n) = true :=
  ((zero_at f).le_iff (ofInt_at f n)).mpr (Nat.zero_le _)

theorem zero_lt_ofInt (f : Format) (h : 0 < n) : zero.lt (ofInt f n) = true := by
  obtain ⟨p, hp, hone, heq⟩ := exists_ofInt_eq (f := f) (Int.natCast_pos.mpr h)
  rw [heq, zero_lt_positive]
  by_contra hp0
  obtain rfl : p = 0 := by omega
  rw [f.units_zero] at hone
  exact absurd hone (Nat.not_le.mpr (twoPow_pos _))

theorem value_ofInt_mono (h : n ≤ N) : (ofInt f n).value ≤ (ofInt f N).value := by
  have hle := Format.nearest_mono (f := f) Nat.one_pos (Nat.mul_le_mul_right (twoPow f.unitBits) h)
  rw [(ofInt_at f n).value_eq, (ofInt_at f N).value_eq,
    div_le_div_iff_of_pos_right (twoPow_unitBits_pos f), Nat.cast_le]
  exact f.units_strictMono.monotone hle

/-- How far off a size and its number can be, as a factor. -/
def roundingFactor (f : Format) : ℚ := 1 + 1 / f.lastConsecutive

theorem value_ofInt_error (h : (n : Int) ≤ IntType.usize.max) :
    (n : ℚ) ≤ (ofInt f n).value * roundingFactor f ∧
      (ofInt f n).value ≤ n * roundingFactor f := by
  rcases Nat.eq_zero_or_pos n with rfl | hn
  · rw [value_ofInt_of_le (Nat.zero_le _)]
    simp
  · have hat := ofInt_at f n
    have hlarge : twoPow f.fractionBits ≤ n * twoPow f.unitBits := by
      have hbits : f.fractionBits ≤ f.unitBits := by cases f <;> decide
      exact (twoPow_le_twoPow hbits).trans (Nat.le_mul_of_pos_left _ hn)
    obtain ⟨hup, hdown⟩ := Format.nearest_error hlarge (hat.isFinite_iff.mp (isFinite_ofInt h))
    have hlast : (0 : ℚ) < f.lastConsecutive := Nat.cast_pos.mpr (twoPow_pos _)
    have hunit := twoPow_unitBits_pos f
    have hfactor : roundingFactor f = (f.lastConsecutive + 1) / f.lastConsecutive := by
      unfold roundingFactor
      field_simp
    rw [hat.value_eq, hfactor, div_mul_div_comm, mul_div_assoc', le_div_iff₀ (by positivity),
      div_le_div_iff₀ hunit hlast]
    constructor
    · calc
        (n : ℚ) * (twoPow f.unitBits * f.lastConsecutive) =
            (n * twoPow f.unitBits * f.lastConsecutive : Nat) := by push_cast; ring
        _ ≤ _ := by exact_mod_cast hup
    · calc
        _ ≤ ((n * twoPow f.unitBits * (f.lastConsecutive + 1) : Nat) : ℚ) := by exact_mod_cast hdown
        _ = _ := by push_cast; ring

end Binary

namespace SamplingRate
open Binary

variable {f : Format} {population sample : Nat}

/-! ### The rate of a sample -/

/-- No rate of a sample from a population of at most `limit` is below the exact one. -/
def CoversUpTo (f : Format) (limit : Nat) : Prop :=
  ∀ population sample : Nat, 0 < population → sample ≤ population → population ≤ limit →
    (sample / population : ℚ) ≤ (samplingRate f population sample).value

section Rate

variable (hpos : 0 < population) (hle : sample ≤ population)
  (hmax : (population : Int) ≤ IntType.usize.max)
include hpos hmax

theorem exists_ofInt_positive (f : Format) : ∃ q hq, 0 < q ∧ q < f.infinity ∧
    ofInt f population = signed false q hq := by
  obtain ⟨q, hq, hq0, heq⟩ := eq_positive_of_zero_lt (zero_lt_ofInt f hpos)
  have hfinite := isFinite_ofInt (f := f) hmax
  rw [heq] at hfinite
  exact ⟨q, hq, hq0, isFinite_positive.mp hfinite, heq⟩

include hle

theorem samplingRate_atLeast (f : Format) : (samplingRate f population sample).AtLeast
    ((ofInt f sample).value / (ofInt f population).value) := by
  obtain ⟨q, hq, hq0, hqf, heq⟩ := exists_ofInt_positive hpos hmax f
  unfold samplingRate
  rw [heq, divUp_atLeast_iff hq0 hqf (zero_le_ofInt f sample) (isFinite_ofInt (by omega))]
  apply not_losesQuotient hq0 (zero_le_ofInt f sample)
  rcases Nat.eq_zero_or_pos sample with rfl | hsample
  · left
    rw [Nat.cast_zero, ofInt_zero]
    rfl
  · right
    obtain ⟨p, hp, hone, hvalue⟩ := exists_ofInt_eq (f := f) (Int.natCast_pos.mpr hsample)
    rw [hvalue, value_positive, div_le_div_iff_of_pos_right (twoPow_unitBits_pos f), Nat.cast_le]
    exact f.remainderBound_le.trans hone

theorem samplingRate_le_of_atLeast {z : Binary f}
    (h : z.AtLeast ((ofInt f sample).value / (ofInt f population).value)) :
    (samplingRate f population sample).le z = true := by
  obtain ⟨q, hq, hq0, hqf, heq⟩ := exists_ofInt_positive hpos hmax f
  unfold samplingRate
  rw [heq] at h ⊢
  exact divUp_le_of_atLeast hq0 hqf (zero_le_ofInt f sample) (isFinite_ofInt (by omega)) h

/-- The rate is at most one, and so it is finite. -/
theorem samplingRate_at (f : Format) :
    ∃ r, (samplingRate f population sample).At r ∧ r ≤ f.one := by
  obtain ⟨q, hq, hq0, hqf, heq⟩ := exists_ofInt_positive hpos hmax f
  have hone : (one : Binary f).AtLeast ((ofInt f sample).value / (ofInt f population).value) := by
    refine Or.inr ⟨by cases f <;> decide, ?_⟩
    rw [value_one, heq, div_le_one (value_pos hq hq0), ← heq]
    exact value_ofInt_mono hle
  have hrate := (ofInt_at f sample).divUp_at hq hq0 hqf
  rw [← heq] at hrate
  refine ⟨_, hrate, (hrate.le_iff (positive_at f.one_le_infinity)).mp ?_⟩
  exact samplingRate_le_of_atLeast hpos hle hmax hone

theorem samplingRate_isFinite (f : Format) :
    (samplingRate f population sample).isFinite = true := by
  obtain ⟨r, hr, hrone⟩ := samplingRate_at hpos hle hmax f
  have hone : f.one < f.infinity := (Nat.le_add_right _ _).trans_lt f.one_add_lt_infinity
  exact hr.isFinite_iff.mpr (hrone.trans_lt hone)

theorem ratio_le_samplingRate (f : Format) :
    (ofInt f sample).value / (ofInt f population).value ≤
      (samplingRate f population sample).value := by
  rcases samplingRate_atLeast hpos hle hmax f with hinf | ⟨-, h⟩
  · have hfinite := samplingRate_isFinite hpos hle hmax f
    rw [hinf, (infinity_at f).isFinite_iff] at hfinite
    exact absurd hfinite (Nat.lt_irrefl _)
  · exact h

/-- Each of the two sizes can be off by the rounding factor. -/
theorem rate_le_factor (f : Format) : (sample / population : ℚ) ≤
    roundingFactor f ^ 2 * (samplingRate f population sample).value := by
  have hsample := (value_ofInt_error (f := f) (n := sample) (by omega)).1
  have hpopulation := (value_ofInt_error (f := f) hmax).2
  have hvalue := value_pos_of_zero_lt (zero_lt_ofInt f hpos)
  have hratio := ratio_le_samplingRate hpos hle hmax f
  have hfactor : 0 < roundingFactor f := by
    unfold roundingFactor
    positivity
  have hpos' : (0 : ℚ) < population := Nat.cast_pos.mpr hpos
  calc
    (sample / population : ℚ) ≤ (ofInt f sample).value * roundingFactor f / population := by gcongr
    _ ≤ (ofInt f sample).value * roundingFactor f /
        ((ofInt f population).value / roundingFactor f) := by
      have hnonneg := value_nonneg_of_zero_le (zero_le_ofInt f sample)
      gcongr
      rwa [div_le_iff₀ hfactor]
    _ = roundingFactor f ^ 2 * ((ofInt f sample).value / (ofInt f population).value) := by
      field_simp
    _ ≤ _ := by gcongr

end Rate

/-! ### Populations whose rates are all covered -/

theorem lastConsecutive_le_usize (f : Format) :
    ((f.lastConsecutive + 2 : Nat) : Int) ≤ IntType.usize.max := by cases f <;> decide

theorem le_samplingRate (hpos : 0 < population) (hle : sample ≤ population)
    (h : population ≤ f.lastConsecutive + 1) :
    (sample / population : ℚ) ≤ (samplingRate f population sample).value := by
  have hmax := lastConsecutive_le_usize f
  have hratio := ratio_le_samplingRate hpos hle (by omega) f
  rw [value_ofInt h, value_ofInt (hle.trans h)] at hratio
  refine le_trans ?_ hratio
  have hlast : 0 < f.lastConsecutive := twoPow_pos _
  rw [div_le_div_iff₀ (Nat.cast_pos.mpr hpos) (Nat.cast_pos.mpr (lt_min hpos hlast)),
    ← Nat.cast_mul, ← Nat.cast_mul, Nat.cast_le]
  rcases Nat.lt_or_ge f.lastConsecutive population with hlt | hfits
  · obtain rfl : population = f.lastConsecutive + 1 := by omega
    rw [Nat.min_eq_right (Nat.le_succ _)]
    rcases hle.eq_or_lt with rfl | hlt
    · rw [Nat.min_eq_right (Nat.le_succ _), Nat.mul_comm]
    · rw [Nat.min_eq_left (by omega)]
      exact Nat.mul_le_mul_left _ (Nat.le_succ _)
  · rw [Nat.min_eq_left hfits, Nat.min_eq_left (hle.trans hfits)]

/-- The size that is rounded down, in a population that is not: the rate is no more than the number
    before one. -/
theorem samplingRate_lt (f : Format) :
    (samplingRate f (f.lastConsecutive + 2) (f.lastConsecutive + 1)).value <
      (f.lastConsecutive + 1 : Nat) / (f.lastConsecutive + 2 : Nat) := by
  have hlast : (2 : ℚ) ≤ f.lastConsecutive := Nat.ofNat_le_cast.mpr (by cases f <;> decide)
  have hone : f.one - 1 < f.infinity := by cases f <;> decide
  have hat := positive_at (f := f) hone.le
  have hvalue : (signed false (f.one - 1) hone.le : Binary f).value =
      (f.lastConsecutive - 1) / f.lastConsecutive := by
    have hunits : f.units (f.one - 1) * f.lastConsecutive =
        (f.lastConsecutive - 1) * twoPow f.unitBits := by
      obtain ⟨hstep, hspan⟩ := f.units_one_pred
      rw [Nat.sub_mul, Nat.one_mul, Nat.mul_comm f.lastConsecutive, ← hstep, Nat.add_mul, hspan, hstep,
        Nat.add_sub_cancel]
    have hcast : ((f.lastConsecutive - 1 : Nat) : ℚ) = f.lastConsecutive - 1 :=
      Nat.cast_pred (twoPow_pos _)
    rw [value_positive, div_eq_div_iff (twoPow_unitBits_pos f).ne' (by positivity), ← hcast]
    exact_mod_cast hunits
  have hpos : 0 < f.lastConsecutive + 2 := Nat.succ_pos _
  have hbound : (signed false (f.one - 1) hone.le : Binary f).AtLeast
      ((ofInt f (f.lastConsecutive + 1 : Nat)).value /
        (ofInt f (f.lastConsecutive + 2 : Nat)).value) := by
    refine Or.inr ⟨isFinite_positive.mpr hone, ?_⟩
    rw [value_ofInt (Nat.le_refl _), value_ofInt_second, hvalue, Nat.min_eq_right (Nat.le_succ _),
      div_le_div_iff₀ (by positivity) (by positivity)]
    push_cast
    nlinarith
  have hle := samplingRate_le_of_atLeast hpos (Nat.le_succ _) (lastConsecutive_le_usize f) hbound
  obtain ⟨r, hr, -⟩ := samplingRate_at hpos (Nat.le_succ _) (lastConsecutive_le_usize f) f
  rw [hr.le_iff hat] at hle
  calc
    _ ≤ (signed false (f.one - 1) hone.le : Binary f).value := (hr.value_le_iff hat).mpr hle
    _ < _ := by
      rw [hvalue, div_lt_div_iff₀ (by positivity) (by positivity)]
      push_cast
      nlinarith

theorem coversUpTo_iff {limit : Nat} : CoversUpTo f limit ↔ limit ≤ f.lastConsecutive + 1 := by
  constructor
  · intro hall
    by_contra hlimit
    have hcover := hall (f.lastConsecutive + 2) (f.lastConsecutive + 1) (Nat.succ_pos _)
      (Nat.le_succ _) (by omega)
    exact absurd hcover (not_le.mpr (samplingRate_lt f))
  · intro hlimit population sample hpos hle hpopulation
    exact le_samplingRate hpos hle (hpopulation.trans hlimit)

/-! ### Amplified losses -/

/-- What is multiplied by the rate is discounted by no more than any rate below it, unless the product
    is very small. -/
theorem discount_atLeast (hpos : 0 < population) (hle : sample ≤ population)
    (hmax : (population : Int) ≤ IntType.usize.max) {x : Binary f} (hx : zero.le x = true)
    (hf : x.isFinite = true) (h : x.isZero = true ∨ (f.remainderBound : ℚ) / twoPow f.unitBits ≤
      x.value * (samplingRate f population sample).value) {exact : ℚ}
    (hexact : exact ≤ (samplingRate f population sample).value) :
    (x.mulUp (samplingRate f population sample)).AtLeast (x.value * exact) := by
  obtain ⟨r, hr, -⟩ := samplingRate_at hpos hle hmax f
  have hrate := ((zero_at f).le_iff hr).mpr (Nat.zero_le _)
  have hproduct := mulUp_atLeast hx hf hrate (samplingRate_isFinite hpos hle hmax f) h
  exact hproduct.mono (mul_le_mul_of_nonneg_left hexact (value_nonneg_of_zero_le hx))

theorem of_amplify_eq_ok {m : Metric} {μ : Measure} [Amplifiable μ] {caps : Capabilities}
    {M M' : Measurement m μ} (h : Measurement.amplify caps M population = .ok M') :
    ∃ sample, M.inputDomain.size? = some sample ∧ 0 < population ∧ sample ≤ population ∧
      ∀ d loss, M.map d = .ok loss →
        M'.map d = .ok (Amplifiable.amplify loss population sample) := by
  obtain ⟨sample, hsize, hpos, hle, rfl⟩ := Measurement.of_amplify_eq_ok h
  refine ⟨sample, hsize, hpos, hle, fun d loss hloss => ?_⟩
  rw [Measurement.map_mapLoss, hloss]
  rfl

end SamplingRate

/-- The rate that losses are discounted by is the least bound on the quotient of the rounded sizes, and
    off by two roundings at most. It covers the exact rate of every sample exactly for populations up to
    the first one that a format does not have. -/
theorem samplingRate_covers [Elementary] (f : Format) :
    (∀ population sample : Nat, 0 < population → sample ≤ population →
      (population : Int) ≤ IntType.usize.max →
        (samplingRate f population sample).isFinite = true ∧
        (Binary.ofInt f sample).value / (Binary.ofInt f population).value ≤
          (samplingRate f population sample).value ∧
        (∀ z : Binary f,
          z.AtLeast ((Binary.ofInt f sample).value / (Binary.ofInt f population).value) →
            (samplingRate f population sample).le z = true) ∧
        (sample / population : ℚ) ≤
          Binary.roundingFactor f ^ 2 * (samplingRate f population sample).value ∧
        ∀ x : Binary f, Binary.zero.le x = true → x.isFinite = true →
          (x.isZero = true ∨ (f.remainderBound : ℚ) / twoPow f.unitBits ≤
            x.value * (samplingRate f population sample).value) →
          ∀ exact ≤ (samplingRate f population sample).value,
            (x.mulUp (samplingRate f population sample)).AtLeast (x.value * exact)) ∧
    (∀ limit, SamplingRate.CoversUpTo f limit ↔ limit ≤ f.lastConsecutive + 1) ∧
    (∀ (m : Metric) (caps : Capabilities) (M M' : Measurement m (.maxDivergence f)) (population : _),
      Measurement.amplify caps M population = .ok M' →
        ∃ sample, M.inputDomain.size? = some sample ∧ 0 < population ∧ sample ≤ population ∧
          ∀ d ε, M.map d = .ok ε →
            M'.map d = .ok (amplifyEpsilon ε (samplingRate f population sample))) ∧
    ∀ (m : Metric) (caps : Capabilities) (M M' : Measurement m (.fixedSmoothedMaxDivergence f))
      (population : _), Measurement.amplify caps M population = .ok M' →
        ∃ sample, M.inputDomain.size? = some sample ∧ 0 < population ∧ sample ≤ population ∧
          ∀ d ε δ, M.map d = .ok (ε, δ) →
            M'.map d = .ok (amplifyEpsilon ε (samplingRate f population sample),
              δ.mulUp (samplingRate f population sample)) := by
  refine ⟨?_, fun _ => SamplingRate.coversUpTo_iff, fun _ _ _ _ _ => SamplingRate.of_amplify_eq_ok, ?_⟩
  · intro population sample hpos hle hmax
    exact ⟨SamplingRate.samplingRate_isFinite hpos hle hmax f,
      SamplingRate.ratio_le_samplingRate hpos hle hmax f,
      fun z => SamplingRate.samplingRate_le_of_atLeast hpos hle hmax,
      SamplingRate.rate_le_factor hpos hle hmax f,
      fun x hx hf h exact => SamplingRate.discount_atLeast hpos hle hmax hx hf h⟩
  · intro m caps M M' population hM
    obtain ⟨sample, hsize, hpos, hle, hmap⟩ := SamplingRate.of_amplify_eq_ok hM
    exact ⟨sample, hsize, hpos, hle, fun d ε δ => hmap d (ε, δ)⟩

/-- One record of three, with a loss of one in both components. -/
theorem samplingRate_covers_third :
    (samplingRate .binary64 3 1).isFinite = true ∧
    (1 / 3 : ℚ) ≤ (samplingRate .binary64 3 1).value ∧
    ∃ (M M' : Measurement .symmetric (.fixedSmoothedMaxDivergence .binary64)) (δ : _),
      M.map .one = .ok (.one, .one) ∧
      @Measurement.amplify _ _ (@instAmplifiableFixedSmoothedMaxDivergence .machine _) .all M 3 =
        .ok M' ∧
      M'.map .one = .ok (@amplifyEpsilon .machine _ .one (samplingRate .binary64 3 1), δ) ∧
      δ.AtLeast (1 / 3) := by
  let _ := Elementary.machine
  obtain ⟨hrate, hcovers, -, hfixed⟩ := samplingRate_covers .binary64
  obtain ⟨hfinite, -, -, -, hdiscount⟩ := hrate 3 1 (by decide) (by decide) (by decide)
  have hthird : (1 / 3 : ℚ) ≤ (samplingRate .binary64 3 1).value := by
    have hcover := (hcovers 3).mpr (by decide) 3 1 (by decide) (by decide) le_rfl
    simpa using hcover
  have hlarge : (Format.remainderBound .binary64 : ℚ) / twoPow (Format.unitBits .binary64) ≤
      Binary.value (.one : Binary .binary64) * (samplingRate .binary64 3 1).value := by
    have hsmall : 3 * (Format.remainderBound .binary64 : ℚ) ≤
        twoPow (Format.unitBits .binary64) := by
      exact_mod_cast (by decide +kernel : 3 * Format.remainderBound .binary64 ≤
        twoPow (Format.unitBits .binary64))
    rw [Binary.value_one, one_mul]
    refine le_trans ?_ hthird
    rw [div_le_div_iff₀ (Binary.twoPow_unitBits_pos _) (by norm_num)]
    linarith
  let M : Measurement .symmetric (.fixedSmoothedMaxDivergence .binary64) :=
    { inputDomain := .sized (.vectorOf .bool) 1
      outputDomain := .all .bool
      function := fun _ x => .ok x
      privacyMap := fun _ => .ok (.one, .one) }
  obtain ⟨M', hM'⟩ : ∃ M', Measurement.amplify .all M 3 = .ok M' := ⟨_, rfl⟩
  obtain ⟨sample, hsize, -, -, hmap⟩ := hfixed _ _ M M' 3 hM'
  obtain rfl := Option.some.inj hsize
  refine ⟨hfinite, hthird, M, M', _, rfl, hM', hmap _ _ _ rfl, ?_⟩
  have hdelta := hdiscount .one (by decide +kernel) (by decide +kernel) (Or.inr hlarge) _ hthird
  rwa [Binary.value_one, one_mul] at hdelta

/-- A sample that is rounded down, in each of the formats. -/
theorem samplingRate_lt_exact :
    (samplingRate .binary32 16777218 16777217).value < 16777217 / 16777218 ∧
      (samplingRate .binary64 9007199254740994 9007199254740993).value <
        9007199254740993 / 9007199254740994 := by
  have hsingle := SamplingRate.samplingRate_lt .binary32
  have hdouble := SamplingRate.samplingRate_lt .binary64
  have hlast : Format.lastConsecutive .binary32 = 16777216 := by decide
  have hlast' : Format.lastConsecutive .binary64 = 9007199254740992 := by decide
  rw [hlast] at hsingle
  rw [hlast'] at hdouble
  exact ⟨by simpa using hsingle, by simpa using hdouble⟩

end DifferentialPrivacy
