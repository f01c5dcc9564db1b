import DifferentialPrivacy.Number.Directed
import DifferentialPrivacy.Proofs.Number.ExactDifference

set_option autoImplicit false

/-!
# Upward sums as least bounds

The error of a nearest sum of two numbers that are not negative is computed exactly, whatever the
magnitudes. So an upward sum steps up exactly when the nearest sum is too small, and it is the least
number of the format, infinity included, that is no less than the exact sum.
-/
namespace DifferentialPrivacy.Binary

variable {f : Format} {x y z : Binary f} {n : Int} {p q : Nat}

/-! ### Finite numbers by their units -/

theorem exists_signed_of_finite (h : x.isFinite = true) :
    ∃ negative p hp, p < f.infinity ∧ x = signed negative p hp := by
  cases x with
  | nan => cases h
  | signed negative p hp => exact ⟨negative, p, hp, of_decide_eq_true h, rfl⟩

theorem units_neg (x : Binary f) : (-x).units = -x.units := by
  cases x with
  | nan => rfl
  | signed negative p hp =>
    cases negative with
    | false => rfl
    | true => exact (Int.neg_neg _).symm

theorem isFinite_neg (x : Binary f) : (-x).isFinite = x.isFinite := by cases x <;> rfl

theorem units_ofUnits (zeroSign : Bool) (h : f.Holds n) :
    (ofUnits f zeroSign n 1).isFinite = true ∧ (ofUnits f zeroSign n 1).units = n := by
  obtain ⟨p, hp, hn⟩ := h
  have hnearest := Format.nearest_units Nat.one_pos hp.le
  rw [Nat.mul_one, ← hn] at hnearest
  unfold ofUnits ofRatio
  split
  · rename_i h0
    refine ⟨decide_eq_true f.zero_lt_infinity, ?_⟩
    cases zeroSign <;> simp [units, h0]
  · refine ⟨decide_eq_true (hnearest ▸ hp), ?_⟩
    change (if decide (n < 0) = true then -(f.units _ : Int) else f.units _) = n
    rw [hnearest, ← hn]
    by_cases h0 : n < 0
    · rw [if_pos (decide_eq_true h0)]
      omega
    · rw [if_neg (by simpa using h0)]
      omega

theorem add_of_finite (hx : x.isFinite = true) (hy : y.isFinite = true) :
    ∃ zeroSign, x + y = ofUnits f zeroSign (x.units + y.units) 1 := by
  obtain ⟨nx, p, hp, hpf, rfl⟩ := exists_signed_of_finite hx
  obtain ⟨ny, q, hq, hqf, rfl⟩ := exists_signed_of_finite hy
  refine ⟨nx && ny, ?_⟩
  change add _ _ = _
  unfold add
  dsimp only
  rw [if_neg hpf.ne, if_neg hqf.ne]

theorem units_add (hx : x.isFinite = true) (hy : y.isFinite = true)
    (h : f.Holds (x.units + y.units)) :
    (x + y).isFinite = true ∧ (x + y).units = x.units + y.units := by
  obtain ⟨zeroSign, hsum⟩ := add_of_finite hx hy
  rw [hsum]
  exact units_ofUnits zeroSign h

theorem units_sub (hx : x.isFinite = true) (hy : y.isFinite = true)
    (h : f.Holds (x.units - y.units)) :
    (x - y).isFinite = true ∧ (x - y).units = x.units - y.units := by
  rw [← isFinite_neg] at hy
  rw [Int.sub_eq_add_neg, ← units_neg] at h ⊢
  exact units_add hx hy h

/-- The error of a sum is exact wherever every step towards it is. -/
theorem units_sumError_of_holds (hx : x.isFinite = true) (hy : y.isFinite = true)
    (hsum : (x + y).isFinite = true) (hpart : (x + y - x).isFinite = true)
    (hrest : f.Holds ((x + y).units - (x + y - x).units))
    (hlost : f.Holds (x.units - ((x + y).units - (x + y - x).units)))
    (hlast : f.Holds (y.units - (x + y - x).units))
    (herror : f.Holds (x.units + y.units - (x + y).units)) :
    (sumError x y).isFinite = true ∧
      (sumError x y).units = x.units + y.units - (x + y).units := by
  obtain ⟨hrestFinite, hrestUnits⟩ := units_sub hsum hpart hrest
  rw [← hrestUnits] at hlost
  obtain ⟨hlostFinite, hlostUnits⟩ := units_sub hx hrestFinite hlost
  obtain ⟨hlastFinite, hlastUnits⟩ := units_sub hy hpart hlast
  have hsplit : (x - (x + y - (x + y - x))).units + (y - (x + y - x)).units =
      x.units + y.units - (x + y).units := by
    rw [hlostUnits, hlastUnits, hrestUnits]
    omega
  rw [← hsplit] at herror ⊢
  exact units_add hlostFinite hlastFinite herror

theorem zero_lt_iff (h : x.isFinite = true) : zero.lt x = true ↔ 0 < x.units := by
  obtain ⟨negative, p, hp, -, rfl⟩ := exists_signed_of_finite h
  have hp0 := f.units_strictMono.lt_iff_lt (a := 0) (b := p)
  rw [f.units_zero] at hp0
  change decide ((0 : Int) < (if negative = true then -(p : Int) else p)) = true ↔
    0 < (if negative = true then -(f.units p : Int) else f.units p)
  rw [decide_eq_true_iff]
  cases negative <;> simp only [if_true, Bool.false_eq_true, if_false] <;> omega

/-! ### Numbers that are not negative -/

/-- `x` lies at a position of the line of magnitudes; only zero may have a sign. -/
def At (x : Binary f) (p : Nat) : Prop :=
  ∃ negative hp, x = signed negative p hp ∧ (negative = true → p = 0)

theorem At.units_eq (h : x.At p) : x.units = f.units p := by
  obtain ⟨negative, hp, rfl, hzero⟩ := h
  cases negative with
  | false => rfl
  | true =>
    obtain rfl := hzero rfl
    change -(f.units 0 : Int) = f.units 0
    rw [f.units_zero]
    rfl

theorem At.isFinite_iff (h : x.At p) : x.isFinite = true ↔ p < f.infinity := by
  obtain ⟨negative, hp, rfl, -⟩ := h
  exact decide_eq_true_iff

theorem At.ordinal?_eq (h : x.At p) : x.ordinal? = some (p : Int) := by
  obtain ⟨negative, hp, rfl, hzero⟩ := h
  cases negative with
  | false => rfl
  | true =>
    obtain rfl := hzero rfl
    rfl

theorem At.le_iff (hx : x.At p) (hy : y.At q) : x.le y = true ↔ p ≤ q := by
  unfold le
  rw [hx.ordinal?_eq, hy.ordinal?_eq]
  exact decide_eq_true_iff.trans Int.ofNat_le

theorem At.le_infinity (h : x.At p) : p ≤ f.infinity := by
  obtain ⟨negative, hp, -, -⟩ := h
  exact hp

theorem At.eq_infinity (h : x.At f.infinity) : x = infinity := by
  obtain ⟨negative, hp, rfl, hzero⟩ := h
  cases negative with
  | false => rfl
  | true => exact absurd (hzero rfl) f.zero_lt_infinity.ne'

theorem At.nextUp_at (h : x.At p) (hp : p < f.infinity) : x.nextUp.At (p + 1) := by
  obtain ⟨negative, hle, rfl, hzero⟩ := h
  refine ⟨false, hp, ?_, fun h => (by cases h)⟩
  unfold nextUp
  by_cases h0 : p = 0
  · simp only [h0, if_true]
  · have hpositive : negative = false := by
      cases negative with
      | false => rfl
      | true => exact absurd (hzero rfl) h0
    simp [h0, hpositive, hp]

theorem infinity_at (f : Format) : (infinity : Binary f).At f.infinity :=
  ⟨false, f.infinity_le, rfl, fun h => (by cases h)⟩

theorem zero_at (f : Format) : (zero : Binary f).At 0 :=
  ⟨false, f.zero_le_infinity, rfl, fun _ => rfl⟩

theorem exists_at_of_zero_le (h : zero.le x = true) : ∃ p, x.At p := by
  cases x with
  | nan => cases h
  | signed negative p hp =>
    refine ⟨p, negative, hp, rfl, ?_⟩
    rintro rfl
    have hle : (0 : Int) ≤ -p := of_decide_eq_true h
    omega

theorem exists_at_of_units_nonneg (h : x.isFinite = true) (hn : 0 ≤ x.units) : ∃ p, x.At p := by
  obtain ⟨negative, p, hp, -, rfl⟩ := exists_signed_of_finite h
  refine ⟨p, negative, hp, rfl, ?_⟩
  rintro rfl
  have hle : (0 : Int) ≤ -(f.units p : Int) := hn
  by_contra hp0
  have := f.units_pos (Nat.pos_of_ne_zero hp0)
  omega

theorem ofUnits_at (f : Format) (zeroSign : Bool) (n : Nat) :
    (ofUnits f zeroSign n 1).At (f.nearest n 1) := by
  rcases Nat.eq_zero_or_pos n with rfl | hn
  · rw [(Format.nearest_eq_zero_iff Nat.one_pos).mpr (by omega)]
    exact ⟨zeroSign, f.zero_le_infinity, rfl, fun _ => rfl⟩
  · rw [ofUnits_of_pos _ _ (Int.natCast_pos.mpr hn), Int.natAbs_natCast]
    exact ⟨false, _, rfl, fun h => (by cases h)⟩

section Sum

variable (hx : x.At p) (hy : y.At q) (hp : p < f.infinity) (hq : q < f.infinity)
include hx hy hp hq

theorem add_at : (x + y).At (f.nearest (f.units p + f.units q) 1) := by
  obtain ⟨zeroSign, hsum⟩ := add_of_finite (hx.isFinite_iff.mpr hp) (hy.isFinite_iff.mpr hq)
  rw [hsum, hx.units_eq, hy.units_eq, ← Int.natCast_add]
  exact ofUnits_at f zeroSign _

theorem sub_at (h : f.units q ≤ f.units p) : (x - y).At (f.nearest (f.units p - f.units q) 1) := by
  obtain ⟨zeroSign, hdiff⟩ := add_of_finite (hx.isFinite_iff.mpr hp)
    ((isFinite_neg y).trans (hy.isFinite_iff.mpr hq))
  change x - y = _ at hdiff
  rw [hdiff, units_neg, hx.units_eq, hy.units_eq, ← Int.sub_eq_add_neg, ← Int.ofNat_sub h]
  exact ofUnits_at f zeroSign _

/-- The error is exact wherever the sum is a number of the format. -/
theorem units_sumError {s : Nat} (hsum : f.nearest (f.units p + f.units q) 1 = s)
    (hs : s < f.infinity) : (sumError x y).isFinite = true ∧
      (sumError x y).units = f.units p + f.units q - f.units s := by
  have hsumAt := add_at hx hy hp hq
  rw [hsum] at hsumAt
  have hps := (Format.le_nearest_sum hp hq hsum).1
  have hpartAt := sub_at hsumAt hx hs hp (f.units_strictMono.le_iff_le.mpr hps)
  generalize hpart : f.nearest (f.units s - f.units p) 1 = t at hpartAt
  obtain ⟨hts, hrest, hlost, hlast⟩ := Format.parts_hold hp hq hs hsum hpart
  have herror := Format.holds_sum_error hp hq hs hsum
  rw [← hsumAt.units_eq, ← hpartAt.units_eq] at hrest
  rw [← hsumAt.units_eq, ← hpartAt.units_eq, ← hx.units_eq] at hlost
  rw [← hpartAt.units_eq, ← hy.units_eq] at hlast
  rw [← hx.units_eq, ← hy.units_eq, ← hsumAt.units_eq] at herror ⊢
  exact units_sumError_of_holds (hx.isFinite_iff.mpr hp) (hy.isFinite_iff.mpr hq)
    (hsumAt.isFinite_iff.mpr hs) (hpartAt.isFinite_iff.mpr (hts.trans_lt hs)) hrest hlost hlast herror

theorem addUp_steps_iff {s : Nat} (hsum : f.nearest (f.units p + f.units q) 1 = s) :
    (x + y).isFinite = true ∧ zero.lt (sumError x y) = true ↔
      s < f.infinity ∧ f.units s < f.units p + f.units q := by
  have hsumAt := add_at hx hy hp hq
  rw [hsumAt.isFinite_iff, hsum]
  apply and_congr_right
  intro hs
  obtain ⟨hfinite, hunits⟩ := units_sumError hx hy hp hq hsum hs
  rw [zero_lt_iff hfinite, hunits]
  omega

/-- The upward sum is the first position that is no less than the exact sum. -/
theorem addUp_at : ∃ u, (x.addUp y).At u ∧ (u < f.infinity → f.units p + f.units q ≤ f.units u) ∧
    ∀ r, f.units p + f.units q ≤ f.units r → u ≤ r := by
  have hsumAt := add_at hx hy hp hq
  generalize hsum : f.nearest (f.units p + f.units q) 1 = s at hsumAt
  have hsteps := addUp_steps_iff hx hy hp hq hsum
  unfold addUp
  dsimp only
  by_cases hshort : s < f.infinity ∧ f.units s < f.units p + f.units q
  · have hnext := Format.lt_units_nearest_succ Nat.one_pos (hsum.symm ▸ hshort.1)
    rw [hsum] at hnext
    rw [if_pos (hsteps.mpr hshort)]
    exact ⟨s + 1, hsumAt.nextUp_at hshort.1, fun _ => by omega,
      fun r hr => f.units_strictMono.lt_iff_lt.mp (hshort.2.trans_le hr)⟩
  · rw [if_neg (fun h => hshort (hsteps.mp h))]
    exact ⟨s, hsumAt, fun _ => by omega,
      fun r hr => hsum ▸ Format.nearest_le Nat.one_pos (by omega)⟩

end Sum

/-! ### Bounds -/

/-- A number of the format, infinity included, that is no less than an exact amount. -/
def AtLeast (amount : ℚ) (z : Binary f) : Prop :=
  z = infinity ∨ z.isFinite = true ∧ amount ≤ z.value

theorem At.value_le_iff (hx : x.At p) (hy : y.At q) : x.value ≤ y.value ↔ p ≤ q := by
  unfold value
  rw [div_le_div_iff_of_pos_right (twoPow_unitBits_pos f), Int.cast_le, hx.units_eq, hy.units_eq,
    Int.ofNat_le, f.units_strictMono.le_iff_le]

theorem value_add_value_le_iff : x.value + y.value ≤ z.value ↔ x.units + y.units ≤ z.units := by
  unfold value
  rw [← add_div, div_le_div_iff_of_pos_right (twoPow_unitBits_pos f), ← Int.cast_add, Int.cast_le]

/-- An upward sum is a bound on the exact one, and no bound lies below it. -/
theorem addUp_least (hx : x.isFinite = true) (hy : y.isFinite = true) (hx0 : zero.le x = true)
    (hy0 : zero.le y = true) : (x.addUp y).AtLeast (x.value + y.value) ∧
      ∀ z : Binary f, z.AtLeast (x.value + y.value) → (x.addUp y).le z = true := by
  obtain ⟨p, hxp⟩ := exists_at_of_zero_le hx0
  obtain ⟨q, hyq⟩ := exists_at_of_zero_le hy0
  obtain ⟨u, hu, hbound, hleast⟩ :=
    addUp_at hxp hyq (hxp.isFinite_iff.mp hx) (hyq.isFinite_iff.mp hy)
  constructor
  · rcases hu.le_infinity.eq_or_lt with rfl | huf
    · exact Or.inl hu.eq_infinity
    · refine Or.inr ⟨hu.isFinite_iff.mpr huf, value_add_value_le_iff.mpr ?_⟩
      rw [hxp.units_eq, hyq.units_eq, hu.units_eq]
      exact_mod_cast hbound huf
  · rintro z (rfl | ⟨hzf, hz⟩)
    · exact (hu.le_iff (infinity_at f)).mpr hu.le_infinity
    · rw [value_add_value_le_iff, hxp.units_eq, hyq.units_eq] at hz
      obtain ⟨r, hr⟩ := exists_at_of_units_nonneg hzf (by omega)
      rw [hr.units_eq] at hz
      exact (hu.le_iff hr).mpr (hleast r (by omega))

theorem addUp_infinite (hx : x.At p) (hy : y.At q) (h : p = f.infinity ∨ q = f.infinity) :
    x.addUp y = infinity := by
  have hsum : x + y = infinity := by
    obtain ⟨nx, hp, heqx, -⟩ := id hx
    obtain ⟨ny, hq, heqy, -⟩ := id hy
    rw [heqx, heqy]
    change add _ _ = _
    unfold add
    dsimp only
    rw [← heqx, ← heqy]
    by_cases hpi : p = f.infinity
    · subst hpi
      rw [if_pos rfl, if_neg, hx.eq_infinity]
      rintro ⟨rfl, hne⟩
      have hsigns : signed nx f.infinity hp = signed ny f.infinity hq := by
        rw [← heqx, ← heqy, hx.eq_infinity, hy.eq_infinity]
      exact hne (by injection hsigns)
    · obtain rfl := h.resolve_left hpi
      rw [if_neg hpi, if_pos rfl, hy.eq_infinity]
  unfold addUp
  dsimp only
  rw [hsum, if_neg]
  rintro ⟨hfinite, -⟩
  exact absurd ((infinity_at f).isFinite_iff.mp hfinite) (Nat.lt_irrefl _)

end DifferentialPrivacy.Binary
