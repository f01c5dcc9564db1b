import DifferentialPrivacy.Proofs.Accounting.ConversionError

set_option autoImplicit false

/-!
# Conversions keep the order

The loss that is reported for a `ρ` is nearly the least one at any order, so it is hardly above the loss
for a larger `ρ`, at the order used there. Near the end of the format, where this says nothing on what
overflows, all orders are the same one, and the sums are in the order of the products.
-/
namespace DifferentialPrivacy

open Binary

variable {f : Format}

namespace Binary

variable {x y : Binary f} {p : Nat}

/-- `x` is no more than `y`, up to a small part of it and a small amount. Every number is that, if `y` is
    infinite. -/
structure WithinSlack (x y : Binary f) : Prop where
  left : x.isNan = false
  right : y.isNan = false
  le : y.isFinite = true → x.isFinite = true ∧ x.value ≤ 101 / 100 * y.value + 1 / 100

theorem At.max_zero_eq (hx : x.At p) : x.max zero = x := by
  have hlt : ¬x.lt zero = true := by
    rw [hx.lt_iff (zero_at f)]
    exact Nat.not_lt_zero p
  obtain ⟨negative, hle, rfl, -⟩ := hx
  unfold max
  rw [if_neg hlt]
  rfl

theorem max_zero_of_finite (hx : x.isFinite = true) :
    (x.max zero).isFinite = true ∧ (x.max zero).value = Max.max x.value 0 := by
  rcases le_or_gt 0 x.value with hnonneg | hneg
  · obtain ⟨p, hp⟩ := exists_at_of_value_nonneg hx hnonneg
    rw [hp.max_zero_eq, max_eq_left hnonneg]
    exact ⟨hx, rfl⟩
  · have hzero : x.max zero = zero := by
      have hlt : x.lt zero = true := by
        obtain ⟨negative, p, hp, -, rfl⟩ := exists_signed_of_finite hx
        cases negative with
        | false =>
          rw [(positive_at hp).value_eq] at hneg
          exact absurd hneg (div_nonneg (Nat.cast_nonneg _) (Nat.cast_nonneg _)).not_gt
        | true =>
          have hp0 : 0 < p := by
            rw [Nat.pos_iff_ne_zero]
            rintro rfl
            rw [(zero_at_of_sign f true).value_eq, f.units_zero, Nat.cast_zero, zero_div] at hneg
            exact lt_irrefl 0 hneg
          exact decide_eq_true (by omega : -(p : ℤ) < ((0 : ℕ) : ℤ))
      unfold max
      rw [if_pos hlt]
      split
      · rfl
      · exact if_neg Bool.false_ne_true
    rw [hzero, max_eq_right hneg.le]
    exact ⟨(zero_at f).isFinite_iff.mpr f.zero_lt_infinity, value_zero f⟩

end Binary

/-- From the bounds on the two computed losses. -/
theorem max_le_of_bounds {η S S' F F' G E E' : ℝ} (hη : 0 < η) (hη' : η ≤ 1 / 8388608)
    (hS : 0 ≤ S) (hS' : 0 ≤ S') (hSF : S ≤ F + 56) (hSF' : S' ≤ F' + 56)
    (hE : E ≤ F + 1 / 1000 + η * (31 * S + 700)) (hE' : F' - η * (31 * S' + 700) ≤ E')
    (hG : G ≤ F') (hF : F ≤ -1 ∨ F ≤ G + 200 * (η * S) + 600 * η + 1 / 1024) :
    max E 0 ≤ 101 / 100 * max E' 0 + 1 / 100 := by
  have hηS := mul_le_mul_of_nonneg_right hη' hS
  have hηS' := mul_le_mul_of_nonneg_right hη' hS'
  have hle := le_max_left E' 0
  have hnonneg := le_max_right E' 0
  refine max_le ?_ (by linarith)
  rcases hF with hneg | hF
  · linarith
  · linarith

/-! ### Large losses -/

theorem product_large {δ ρ α : Binary f} {d : Nat} (hδ : δ.At d) (hd0 : 0 < d) (hd : d < f.one)
    (hlarge : f.range / 64 ≤ ρ.value) (hα : α.At (f.one + 1)) :
    1000 + 8 * ((-Real.log δ.value + Real.log α.value) / (α.value - 1)) ≤ α.value * ρ.value := by
  obtain ⟨hl, hl'⟩ := neg_log_bounds hδ hd0 hd
  have hone : f.one + 1 < f.infinity := by cases f <;> decide
  have hX := one_add_precision_le hα f.one.lt_succ_self
  have hg' := log_value_le hα f.one.succ_pos hone
  have hη := f.precision_pos
  have hbits := f.mul_unitBits_le_mul_range
  have hquotient : (-Real.log δ.value + Real.log α.value) / (α.value - 1) ≤ f.range / 1000 := by
    rw [div_le_iff₀ (by linarith)]
    have hscaled := mul_le_mul_of_nonneg_left (by linarith : f.precision ≤ α.value - 1)
      f.range_pos.le
    have := f.precision_mul_le (mul_nonneg hη.le f.range_pos.le)
    linarith
  have hproduct := mul_le_mul_of_nonneg_right (by linarith : (1 : ℝ) ≤ α.value)
    ((div_nonneg f.range_pos.le (by norm_num)).trans hlarge)
  linarith [f.ten_million_le_range]

section Finite

variable [Elementary] (hlib : Elementary.LnAccurate f) {δ ρ ρ' : Binary f} {d r r' : Nat}
  (hδ : δ.At d) (hd0 : 0 < d) (hd : d < f.one) (hρ : ρ.At r) (hr0 : 0 < r) (hρ' : ρ'.At r')
  (hr' : r' < f.infinity) (hle : r ≤ r') (hover : (-Elementary.ln δ / ρ).isFinite = true)
include hlib hδ hd0 hd hρ hr0 hρ' hr' hle hover

/-- Near the end of the format the reported losses are in the order of the `ρ`. -/
theorem epsilonAt_optimal_at_of_large (hlarge : f.range / 64 ≤ ρ.value) :
    ∃ e e', (epsilonAt ρ δ (optimalAlpha ρ (-Elementary.ln δ))).At e ∧
      (epsilonAt ρ' δ (optimalAlpha ρ' (-Elementary.ln δ))).At e' ∧ e ≤ e' := by
  have hr := hle.trans_lt hr'
  have hover' := start_isFinite_of_le hlib hδ hd0 hd hρ hr0 hρ' hr' hle hover
  have hmono : (ρ.value : ℝ) ≤ ρ'.value := hρ.real_value_mono hρ' hle
  have hα := optimalAlpha_at_of_large hlib hδ hd0 hd hρ hr0 hr hover hlarge
  have hα' := optimalAlpha_at_of_large hlib hδ hd0 hd hρ' (hr0.trans_le hle) hr' hover'
    (hlarge.trans hmono)
  have heq : optimalAlpha ρ' (-Elementary.ln δ) = optimalAlpha ρ (-Elementary.ln δ) := by
    obtain ⟨_, heq⟩ := hα.eq_positive f.one.succ_pos
    obtain ⟨_, heq'⟩ := hα'.eq_positive f.one.succ_pos
    rw [heq, heq']
  rw [heq]
  obtain ⟨a, hat, -, -, hnear⟩ := optimalAlpha_nearlyLeast hlib hδ hd0 hd hρ hr0 hr hover
  have hone : f.one + 1 < f.infinity := by cases f <;> decide
  exact epsilonAt_at_of_large hlib hα f.one.lt_succ_self hone hδ hd0 hd hnear.le_range hρ hρ' hle
    hr' (product_large hδ hd0 hd hlarge hα)

theorem epsilonAt_optimal_withinSlack :
    ((epsilonAt ρ δ (optimalAlpha ρ (-Elementary.ln δ))).max zero).WithinSlack
      ((epsilonAt ρ' δ (optimalAlpha ρ' (-Elementary.ln δ))).max zero) := by
  have hr := hle.trans_lt hr'
  have hr0' := hr0.trans_le hle
  have hmono : (ρ.value : ℝ) ≤ ρ'.value := hρ.real_value_mono hρ' hle
  have hover' := start_isFinite_of_le hlib hδ hd0 hd hρ hr0 hρ' hr' hle hover
  obtain ⟨a, hα, ha, hai, hnear⟩ := optimalAlpha_nearlyLeast hlib hδ hd0 hd hρ hr0 hr hover
  obtain ⟨a', hα', ha', hai', hnear'⟩ :=
    optimalAlpha_nearlyLeast hlib hδ hd0 hd hρ' hr0' hr' hover'
  refine ⟨isNan_of_zero_le (zero_le_max_zero _), isNan_of_zero_le (zero_le_max_zero _),
    fun hfinite' => ?_⟩
  rcases le_or_gt (ρ.value : ℝ) (f.range / 64) with hsmall | hlarge
  · have hf := epsilonAt_isFinite hlib hα ha hai hδ hd0 hd hρ hr hnear hsmall
    have hf' : (epsilonAt ρ' δ (optimalAlpha ρ' (-Elementary.ln δ))).isFinite = true := by
      rcases le_or_gt (ρ'.value : ℝ) (f.range / 64) with hsmall' | hlarge'
      · exact epsilonAt_isFinite hlib hα' ha' hai' hδ hd0 hd hρ' hr' hnear' hsmall'
      · obtain ⟨e, -, he, -⟩ := epsilonAt_optimal_at_of_large hlib hδ hd0 hd hρ' hr0' hρ' hr'
          le_rfl hover' hlarge'.le
        rwa [he.max_zero_eq] at hfinite'
    obtain ⟨hS, hSF, -, hhigh⟩ :=
      epsilonAt_bounds hlib hα ha hai hδ hd0 hd hρ hr hnear hf rfl rfl
    obtain ⟨hS', hSF', hlow', -⟩ :=
      epsilonAt_bounds hlib hα' ha' hai' hδ hd0 hd hρ' hr' hnear' hf' rfl rfl
    have hleast := hnear.least _ a' hα' ha'
    have hx' := one_add_precision_le hα' ha'
    have hcurve := orderLoss_mono (l := -Real.log δ.value)
      (by linarith [f.precision_pos] : 0 ≤ ((optimalAlpha ρ' (-Elementary.ln δ)).value - 1 : ℝ)) hmono
    rw [add_sub_cancel, mul_comm (ρ.value : ℝ)] at hleast
    have hbound := max_le_of_bounds f.precision_pos f.precision_le hS hS' hSF hSF' hhigh hlow'
      hcurve hleast
    obtain ⟨hmaxf, hmax⟩ := max_zero_of_finite hf
    obtain ⟨-, hmax'⟩ := max_zero_of_finite hf'
    refine ⟨hmaxf, ?_⟩
    rw [hmax, hmax', ← Rat.cast_le (K := ℝ)]
    push_cast
    exact hbound
  · obtain ⟨e, e', he, he', hee⟩ := epsilonAt_optimal_at_of_large hlib hδ hd0 hd hρ hr0 hρ' hr' hle
      hover hlarge.le
    rw [he.max_zero_eq, he'.max_zero_eq]
    rw [he'.max_zero_eq] at hfinite'
    have hvalue := (he.value_le_iff he').mpr hee
    have hnonneg : 0 ≤ (epsilonAt ρ' δ (optimalAlpha ρ' (-Elementary.ln δ))).value :=
      he'.value_eq ▸ div_nonneg (Nat.cast_nonneg _) (Nat.cast_nonneg _)
    exact ⟨he.isFinite_iff.mpr (hee.trans_lt (he'.isFinite_iff.mp hfinite')), by linarith⟩

end Finite

/-! ### The conversion -/

section Keeps

variable [Elementary]

/-- The losses at `δ` are in the order of the `ρ`, up to the slack, unless the first quotient of the
    conversion of `ρ` overflows and `ρ'` has a finite loss. -/
def KeepsOrder (ρ ρ' δ : Binary f) : Prop :=
  ∃ ε ε', approximateEpsilon ρ δ = .ok ε ∧ approximateEpsilon ρ' δ = .ok ε' ∧
    (ε.WithinSlack ε' ↔ ¬(ρ.isZero = false ∧ (-Elementary.ln δ / ρ).isInfinite = true ∧
      ε'.isFinite = true))

variable {ρ ρ' δ : Binary f}

theorem KeepsOrder.withinSlack (h : KeepsOrder ρ ρ' δ)
    (hfinite : (-Elementary.ln δ / ρ).isFinite = true) :
    ∃ ε ε', approximateEpsilon ρ δ = .ok ε ∧ approximateEpsilon ρ' δ = .ok ε' ∧
      ε.WithinSlack ε' := by
  obtain ⟨ε, ε', hε, hε', hslack⟩ := h
  refine ⟨ε, ε', hε, hε', hslack.mpr fun hover => ?_⟩
  obtain ⟨negative, q, hq, hqf, heq⟩ := exists_signed_of_finite hfinite
  rw [heq] at hover
  exact hqf.ne (of_decide_eq_true hover.2.1)

variable (hlib : Elementary.LnAccurate f)
include hlib

theorem keepsOrder_of_ascending (hle : Ascending ρ ρ') (hδ : zero.lt δ = true)
    (hone : δ.lt one = true) : KeepsOrder ρ ρ' δ := by
  obtain ⟨r, r', hρ, hρ', hrr⟩ := hle
  obtain ⟨ε, hε⟩ := exists_approximateEpsilon (((zero_at f).le_iff hρ).mpr (Nat.zero_le r)) hδ hone
  obtain ⟨ε', hε'⟩ :=
    exists_approximateEpsilon (((zero_at f).le_iff hρ').mpr (Nat.zero_le r')) hδ hone
  have hε0' := nonNegative_approximateEpsilon ρ' δ ε' hε'
  have hnan := isNan_of_zero_le (nonNegative_approximateEpsilon ρ δ ε hε)
  have hnan' := isNan_of_zero_le hε0'
  refine ⟨ε, ε', hε, hε', ?_⟩
  rcases Nat.eq_zero_or_pos r with rfl | hr0
  · have hzero := hρ.isZero_iff.mpr rfl
    have heq : ε = zero :=
      Except.ok.inj (hε.symm.trans (approximateEpsilon_of_zero hδ hone hρ))
    refine iff_of_true ⟨hnan, hnan', fun _ => ?_⟩ fun h => by simp [hzero] at h
    rw [heq, value_zero]
    exact ⟨(zero_at f).isFinite_iff.mpr f.zero_lt_infinity,
      by linarith [value_nonneg_of_zero_le hε0']⟩
  · have hr0' := hr0.trans_le hrr
    rcases hρ'.le_infinity.eq_or_lt with rfl | hr'
    · have heq : ε' = infinity :=
        Except.ok.inj (hε'.symm.trans (approximateEpsilon_of_infinite hδ hone hρ'))
      have hend := not_isFinite_infinity f
      rw [heq]
      exact iff_of_true ⟨hnan, rfl, fun h => absurd h hend⟩ fun h => hend h.2.2
    · have hr := hrr.trans_lt hr'
      have hnonzero := Bool.eq_false_iff.mpr fun h => hr0.ne' (hρ.isZero_iff.mp h)
      by_cases hover : (-Elementary.ln δ / ρ).isInfinite = true
      · have heq : ε = infinity := Except.ok.inj
          (hε.symm.trans (approximateEpsilon_of_overflow hlib hδ hone hρ hr0 hr hover))
        subst heq
        refine ⟨fun h hbad => not_isFinite_infinity f (h.le hbad.2.2).1,
          fun h => ⟨hnan, hnan', fun hfinite => absurd ⟨hnonzero, hover, hfinite⟩ h⟩⟩
      · obtain ⟨d, hd, hd0, rfl⟩ := eq_positive_of_zero_lt hδ
        have hat := positive_at hd
        have hd1 := (hat.lt_iff (one_at f)).mp hone
        obtain ⟨l, -, -, hl, -⟩ := neg_ln_at hlib hat hd0 hd1
        obtain ⟨q, hq⟩ := exists_div_at hl hρ hr0 hr
        have hfinite := hq.isFinite_iff.mpr
          (hq.le_infinity.lt_of_ne fun h => hover (hq.isInfinite_iff.mpr h))
        rw [approximateEpsilon_of_finite hδ hone hρ hr0 hr] at hε
        rw [approximateEpsilon_of_finite hδ hone hρ' hr0' hr'] at hε'
        rw [← Except.ok.inj hε, ← Except.ok.inj hε']
        exact iff_of_true
          (epsilonAt_optimal_withinSlack hlib hat hd0 hd1 hρ hr0 hρ' hr' hrr hfinite)
          fun h => hover h.2.1

end Keeps

/-- Conversion keeps losses in order, up to the slack, wherever its first quotient does not overflow, and so
    the converted measurement has losses in order for a monotone map. -/
theorem conversion_keepsOrder [Elementary] (hlib : Elementary.LnAccurate f) :
    (∀ ρ ρ' δ : Binary f, zero.le ρ = true → ρ.le ρ' = true → zero.lt δ = true →
      δ.lt one = true → KeepsOrder ρ ρ' δ) ∧
    ∀ {m : Metric} {caps : Capabilities} {M : Measurement m (.zeroConcentratedDivergence f)}
      {C : Measurement m (.smoothedMaxDivergence f)}, M.Monotone →
      M.concentratedToCurve caps = .ok C → ∀ (d d' : m.Distance) (ρ' : Binary f), m.Legal d →
      m.distanceType.le d d' = true → M.map d' = .ok ρ' →
      ∃ ρ, M.map d = .ok ρ ∧ C.map d = .ok (approximateEpsilon ρ) ∧
        C.map d' = .ok (approximateEpsilon ρ') ∧
        ∀ δ, zero.lt δ = true → δ.lt one = true → KeepsOrder ρ ρ' δ := by
  refine ⟨fun ρ ρ' δ hρ hle hδ hone =>
    keepsOrder_of_ascending hlib (ascending_iff.mpr ⟨hρ, hle⟩) hδ hone, ?_⟩
  intro m caps M C hM hC d d' ρ' hd hle hρ'
  obtain ⟨_, _, hC⟩ := bind_eq_ok_iff.mp hC
  cases hC
  obtain ⟨_, hd', hρ'⟩ := bind_eq_ok_iff.mp hρ'
  obtain ⟨ρ, hρ, hascending⟩ := hM d d' ⟨hd, hle⟩ ρ' hρ'
  exact ⟨ρ, bind_eq_ok_iff.mpr ⟨(), hd, hρ⟩,
    bind_eq_ok_iff.mpr ⟨(), hd, bind_eq_ok_iff.mpr ⟨ρ, hρ, rfl⟩⟩,
    bind_eq_ok_iff.mpr ⟨(), hd', bind_eq_ok_iff.mpr ⟨ρ', hρ', rfl⟩⟩,
    fun δ hδ hone => keepsOrder_of_ascending hlib hascending hδ hone⟩

/-- From a `ρ` of one to one of two, alone and as the losses of a measurement at two distances. -/
theorem conversion_keepsOrder_half : @Elementary.LnAccurate .exact .binary64 ∧
    (∃ ε ε' : Binary .binary64,
      @approximateEpsilon _ .exact .one (.ofBits _ 0x3fe0000000000000) = .ok ε ∧
      @approximateEpsilon _ .exact .two (.ofBits _ 0x3fe0000000000000) = .ok ε' ∧
      ε.WithinSlack ε') ∧
    ∃ (M : Measurement .symmetric (.zeroConcentratedDivergence .binary64))
      (C : Measurement .symmetric (.smoothedMaxDivergence .binary64)), M.Monotone ∧
      @Measurement.concentratedToCurve _ _ .exact .all M = .ok C ∧ ∃ curve curve',
        C.map ⟨1, by decide, by decide⟩ = .ok curve ∧
        C.map ⟨2, by decide, by decide⟩ = .ok curve' ∧ ∃ ε ε',
          curve (.ofBits _ 0x3fe0000000000000) = .ok ε ∧
          curve' (.ofBits _ 0x3fe0000000000000) = .ok ε' ∧ ε.WithinSlack ε' := by
  let _ := Elementary.exact
  have hlib := Elementary.exact_lnAccurate .binary64
  obtain ⟨horder, hmap⟩ := conversion_keepsOrder hlib
  have hhalf : zero.lt (.ofBits .binary64 0x3fe0000000000000) = true := by decide +kernel
  have hone : (Binary.ofBits .binary64 0x3fe0000000000000).lt one = true := by decide +kernel
  obtain ⟨d, hd, hd0, hδ⟩ := eq_positive_of_zero_lt hhalf
  have hstart : (-Elementary.ln (.ofBits .binary64 0x3fe0000000000000) / one).isFinite = true := by
    rw [hδ] at hone ⊢
    have hat := positive_at hd
    exact start_isFinite hlib hat hd0 ((hat.lt_iff (one_at _)).mp hone) (one_at _) le_rfl
      (Format.one_lt_infinity _)
  have hpair := horder one two _ (by decide +kernel) (by decide +kernel) hhalf hone
  let M : Measurement .symmetric (.zeroConcentratedDivergence .binary64) :=
    { inputDomain := .all .bool
      outputDomain := .all .bool
      function := fun _ x => .ok x
      privacyMap := fun d => .ok (.ofInt _ d.val) }
  have hM : M.Monotone := nonDecreasing_ok fun _ _ hle => NumType.ofInt_ascending hle
  obtain ⟨C, hC⟩ : ∃ C, M.concentratedToCurve .all = .ok C := ⟨_, rfl⟩
  obtain ⟨ρ, hρ, hcurve, hcurve', hkeeps⟩ := hmap hM hC ⟨1, by decide, by decide⟩
    ⟨2, by decide, by decide⟩ _ rfl (by decide) rfl
  have hρ1 : ρ = one := by
    rw [← Except.ok.inj hρ]
    decide +kernel
  subst hρ1
  exact ⟨hlib, hpair.withinSlack hstart, M, C, hM, hC, _, _, hcurve, hcurve',
    (hkeeps _ hhalf hone).withinSlack hstart⟩

/-- The smallest `ρ` of all converts to an infinite loss at a `δ` of one half, and a `ρ` of one to a finite
    one. -/
theorem conversion_loses_order :
    (signed false 1 (by decide) : Binary .binary64).le one = true ∧
    @approximateEpsilon .binary64 .exact (signed false 1 (by decide))
      (.ofBits _ 0x3fe0000000000000) = .ok infinity ∧
    ∃ ε', @approximateEpsilon .binary64 .exact one (.ofBits _ 0x3fe0000000000000) = .ok ε' ∧
      ε'.isFinite = true ∧ ¬(infinity : Binary .binary64).WithinSlack ε' := by
  let _ := Elementary.exact
  have hlib := Elementary.exact_lnAccurate .binary64
  have hhalf : zero.lt (.ofBits .binary64 0x3fe0000000000000) = true := by decide +kernel
  have hone : (Binary.ofBits .binary64 0x3fe0000000000000).lt one = true := by decide +kernel
  have hvalue : (Binary.ofBits .binary64 0x3fe0000000000000).value ≤ 1 / 2 := by decide +kernel
  obtain ⟨d, hd, hd0, hδ⟩ := eq_positive_of_zero_lt hhalf
  rw [hδ] at hhalf hone hvalue ⊢
  have hat := positive_at hd
  have hd1 := (hat.lt_iff (one_at _)).mp hone
  have hfirst : (signed false 1 (by decide) : Binary .binary64).At 1 := positive_at _
  have hr : Format.one .binary64 < Format.infinity .binary64 := Format.one_lt_infinity _
  have hr0 : 0 < Format.one .binary64 := by decide
  have hover := start_isInfinite hlib hat hd0 hd1 hfirst
    (by simpa using (Rat.cast_le (K := ℝ)).mpr hvalue)
  have hstart := start_isFinite hlib hat hd0 hd1 (one_at _) le_rfl hr
  obtain ⟨a, hα, ha, hai, hnear⟩ :=
    optimalAlpha_nearlyLeast hlib hat hd0 hd1 (one_at _) hr0 hr hstart
  have hfinite := epsilonAt_isFinite hlib hα ha hai hat hd0 hd1 (one_at _) hr hnear (by
    rw [value_one, Rat.cast_one]
    linarith [Format.ten_million_le_range .binary64])
  have hmax := (max_zero_of_finite hfinite).1
  exact ⟨by decide,
    approximateEpsilon_of_overflow hlib hhalf hone hfirst Nat.one_pos (by decide) hover, _,
    approximateEpsilon_of_finite hhalf hone (one_at _) hr0 hr, hmax,
    fun h => not_isFinite_infinity _ (h.le hmax).1⟩

end DifferentialPrivacy
