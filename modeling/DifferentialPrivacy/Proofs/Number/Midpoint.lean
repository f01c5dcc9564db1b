import DifferentialPrivacy.Proofs.Number.DifferenceError
import DifferentialPrivacy.Proofs.Number.HalfSquares

set_option autoImplicit false

/-!
# Midpoints

The midpoint of two numbers from one on is computed as the lower one plus half of the difference, and
the difference may be rounded. It still lies between the two numbers, and strictly between them unless
they are neighbours. If the upper number is infinity, so is the midpoint.
-/
namespace DifferentialPrivacy

namespace Format

variable {f : Format} {a b s h k m n p : Nat}

theorem units_floorPosition_mul_spacing (hh : h ≤ twoPow (f.fractionBits + 1)) (m : Nat) :
    f.units (f.floorPosition (h * f.spacing m)) = h * f.spacing m := units_floorPosition_mul hh _

theorem spacing_le_of_le (h : p ≤ m) : f.spacing p ≤ f.spacing m :=
  twoPow_le_twoPow (Nat.sub_le_sub_right (Nat.div_le_div_right h) 1)

theorem spacing_succ_le (f : Format) (m : Nat) : f.spacing (m + 1) ≤ 2 * f.spacing m := by
  have hdiv : (m + 1) / twoPow f.fractionBits ≤ m / twoPow f.fractionBits + 1 := by
    rw [Nat.succ_div]
    split <;> omega
  unfold spacing
  rw [Nat.mul_comm, ← twoPow_succ]
  exact twoPow_le_twoPow (by omega)

/-- From one on the spacing is even. -/
theorem exists_spacing_eq_two_mul (h : f.one ≤ m) : ∃ e, f.spacing m = 2 * twoPow e := by
  have hone := f.spacing_one.1
  have hle := spacing_le_of_le (f := f) h
  have hpos := twoPow_pos f.fractionBits
  rw [twoPow_succ] at hone
  unfold spacing at hle hone ⊢
  cases hexp : m / twoPow f.fractionBits - 1 with
  | zero =>
    rw [hexp] at hle
    change _ ≤ 1 at hle
    omega
  | succ e => exact ⟨e, by rw [twoPow_succ, Nat.mul_comm]⟩

/-- Amounts that are not below the spacing at one have positions with an exact half. -/
theorem exists_half_of_large (h : f.spacing f.one ≤ f.units s) : ∃ r, 2 * f.units r = f.units s := by
  apply exists_two_mul_units_eq
  intro hone
  have hsucc := f.units_succ_le s
  have hlarge := f.spacing_one.1
  rw [units_succ, hone, Nat.mul_one] at hsucc
  omega

theorem nearest_le_of_lt_middle (h : 2 * n < f.units p + f.units (p + 1)) :
    f.nearest n 1 ≤ p := by
  obtain ⟨low, hle, -, hcases⟩ := f.nearest_halves n Nat.one_pos
  have hlow : low < p + 1 := by
    apply f.units_strictMono.lt_iff_lt.mp
    have := f.units_succ p
    omega
  rcases (Nat.lt_succ_iff.mp hlow).eq_or_lt with rfl | hlow
  · rcases hcases with ⟨hn, -⟩ | ⟨-, hmiddle⟩ <;> omega
  · rcases hcases with ⟨hn, -⟩ | ⟨hn, -⟩ <;> omega

section Midpoint

variable (hone : f.one ≤ a) (hab : a < b) (hb : b < f.infinity)
  (hs : f.nearest (f.units b - f.units a) 1 = s) (hh : 2 * f.units h = f.units s)
  (hm : f.nearest (f.units a + f.units h) 1 = m)

include hab hb hs

theorem mul_spacing_le_units_nearest_sub (hk : k ≤ twoPow (f.fractionBits + 1))
    (h : k * f.spacing a ≤ f.units b - f.units a) : k * f.spacing a ≤ f.units s := by
  have hlt := f.units_strictMono hab
  have hend := f.units_strictMono hb
  have hexact := units_floorPosition_mul_spacing hk a
  have hfits : f.floorPosition (k * f.spacing a) ≤ f.infinity :=
    f.units_strictMono.le_iff_le.mp (by omega)
  rw [← hexact, ← hs]
  exact f.units_strictMono.monotone (le_nearest Nat.one_pos hfits (by omega))

include hh hm

theorem midpoint_between : a ≤ m ∧ m ≤ b := by
  have hlt := f.units_strictMono hab
  have hsb : s < f.infinity := (nearest_sub_le hs).trans_lt hb
  have hzero := f.units_zero
  obtain ⟨-, hdouble⟩ := nearest_within (p := 0) (k := f.units b - f.units a) hs hsb (by omega)
    (by omega)
  constructor
  · rw [← hm]
    exact le_nearest Nat.one_pos (hab.trans hb).le (by omega)
  · rw [← hm]
    exact nearest_le Nat.one_pos (by omega)

include hone

/-- The rounding of the difference does not carry the midpoint beyond the neighbours of the ends. -/
theorem midpoint_strictly_between (hgap : a + 1 < b) : a < m ∧ m < b := by
  obtain ⟨n, rfl⟩ : ∃ n, b = n + 1 + 1 := ⟨b - 2, by omega⟩
  have han : a ≤ n := by omega
  have hlow : f.units a ≤ f.units n := f.units_strictMono.monotone han
  have hlow' : f.units (a + 1 + 1) ≤ f.units (n + 1 + 1) := f.units_strictMono.monotone (by omega)
  have hfirst := f.units_succ a
  have hsecond := f.units_succ (a + 1)
  have hlast := f.units_succ (n + 1)
  have hbefore := f.units_succ n
  have hgrow := spacing_le_of_le (f := f) a.le_succ
  have hdouble := f.spacing_succ_le n
  have hend := f.units_strictMono hb
  have hsb : s < f.infinity := (nearest_sub_le hs).trans_lt hb
  rw [Nat.succ_eq_add_one] at hgrow
  constructor
  · have htwo := mul_spacing_le_units_nearest_sub (k := 2) hab hb hs (by cases f <;> decide)
      (by omega)
    have hle : a + 1 ≤ f.nearest (f.units a + f.units h) 1 :=
      le_nearest Nat.one_pos (by omega) (by omega)
    omega
  · -- Three halves of the last spacing are near enough to the difference.
    obtain ⟨e, hspacing⟩ := exists_spacing_eq_two_mul (f := f) (m := n + 1) (by omega)
    have hthree := units_floorPosition_mul (f := f) (h := 3) (by cases f <;> decide) e
    have hpos := twoPow_pos e
    obtain ⟨-, hnear⟩ := nearest_within (p := f.floorPosition (3 * twoPow e))
      (k := f.units (n + 1) - f.units a - twoPow e) hs hsb (by omega) (by omega)
    have hmiddle : f.nearest (f.units a + f.units h) 1 ≤ n + 1 :=
      nearest_le_of_lt_middle (by omega)
    omega

end Midpoint

end Format

namespace Binary

variable {f : Format} {x y low high : Binary f} {a b h p q : Nat}

/-! ### Quotients and sums with infinity -/

theorem half_at (hx : x.At p) (hp : p < f.infinity) (hh : 2 * f.units h = f.units p) :
    (x / two).At h := by
  have hhp : h ≤ p := f.units_strictMono.le_iff_le.mp (by omega)
  have hhalf := div_at hx (two_eq f ▸ positive_at f.one_add_lt_infinity.le) hp
    f.one_add_lt_infinity (Nat.add_pos_right _ (twoPow_pos _))
  have hexact := Format.nearest_units (f := f) (p := h)
    (Nat.mul_pos Nat.two_pos (twoPow_pos f.unitBits)) (hhp.trans hp.le)
  rw [f.units_one_add, ← hh] at hhalf
  rwa [show 2 * f.units h * twoPow f.unitBits = f.units h * (2 * twoPow f.unitBits) by ring, hexact]
    at hhalf

theorem infinity_sub (hy : y.At q) (hq : q < f.infinity) : infinity - y = infinity := by
  obtain ⟨negative, hle, rfl, -⟩ := hy
  change add (signed false f.infinity _) (signed (!negative) q hle) = _
  unfold add
  exact (if_pos rfl).trans (if_neg fun h => hq.ne h.1)

theorem sub_infinity (hx : x.At p) (hp : p < f.infinity) : x - infinity = -infinity := by
  obtain ⟨negative, hle, rfl, -⟩ := hx
  change add (signed negative p hle) (signed true f.infinity _) = _
  unfold add
  exact (if_neg hp.ne).trans (if_pos rfl)

theorem infinity_sub_infinity (f : Format) : (infinity - infinity : Binary f) = nan := by
  change add (signed false f.infinity _) (signed true f.infinity _) = _
  unfold add
  exact (if_pos rfl).trans (if_pos ⟨rfl, Bool.false_ne_true⟩)

theorem add_infinity (hx : x.At p) (hp : p < f.infinity) : x + infinity = infinity := by
  obtain ⟨negative, hle, rfl, -⟩ := hx
  change add (signed negative p hle) (signed false f.infinity _) = _
  unfold add
  exact (if_neg hp.ne).trans (if_pos rfl)

theorem infinity_div (hy : y.At q) (hq0 : 0 < q) (hq : q < f.infinity) : infinity / y = infinity := by
  obtain ⟨hle, rfl⟩ := hy.eq_positive hq0
  change div (signed false f.infinity _) (signed false q hle) = _
  unfold div
  exact (if_pos rfl).trans (if_neg hq.ne)

theorem infinity_div_infinity (f : Format) : (infinity / infinity : Binary f) = nan := by
  change div (signed false f.infinity _) (signed false f.infinity _) = _
  unfold div
  exact (if_pos rfl).trans (if_pos rfl)

theorem div_infinity (hx : x.isFinite = true) :
    ∃ negative, x / infinity = signed negative 0 f.zero_le_infinity := by
  obtain ⟨negative, p, hp, hpf, rfl⟩ := exists_signed_of_finite hx
  refine ⟨negative, ?_⟩
  change div (signed negative p hp) (signed false f.infinity _) = _
  unfold div
  dsimp only
  rw [if_neg hpf.ne, if_pos rfl, Bool.xor_false]

/-- A finite number over one that is positive, and infinite perhaps. -/
theorem exists_finite_div_at (hx : x.At p) (hy : y.At q) (hp : p < f.infinity) (hq0 : 0 < q) :
    ∃ r, (x / y).At r := by
  rcases hy.le_infinity.eq_or_lt with rfl | hq
  · obtain ⟨negative, hzero⟩ := div_infinity (hx.isFinite_iff.mpr hp)
    rw [hy.eq_infinity, hzero]
    exact ⟨0, zero_at_of_sign f negative⟩
  · exact ⟨_, div_at hx hy hp hq hq0⟩

/-! ### Midpoints -/

/-- As it is computed, the midpoint of two numbers from one on. -/
theorem midpoint_at (hlow : low.At a) (hhigh : high.At b) (hone : f.one ≤ a) (hab : a < b) :
    ∃ m, (low + (high - low) / two).At m ∧ a ≤ m ∧ m ≤ b ∧
      (b < f.infinity → a + 1 < b → a < m ∧ m < b) ∧ (b = f.infinity → m = f.infinity) := by
  have ha : a < f.infinity := hab.trans_le hhigh.le_infinity
  rcases hhigh.le_infinity.eq_or_lt with rfl | hb
  · obtain rfl := hhigh.eq_infinity
    refine ⟨f.infinity, ?_, ha.le, le_rfl, fun h => absurd h (Nat.lt_irrefl _), fun _ => rfl⟩
    rw [infinity_sub hlow ha, infinity_div (two_eq f ▸ positive_at f.one_add_lt_infinity.le)
      (Nat.add_pos_right _ (twoPow_pos _)) f.one_add_lt_infinity, add_infinity hlow ha]
    exact infinity_at f
  · have hdiff := sub_at hhigh hlow hb ha (f.units_strictMono hab).le
    generalize hs : f.nearest (f.units b - f.units a) 1 = s at hdiff
    have hlarge := Format.mul_spacing_le_units_nearest_sub (k := 1) hab hb hs (twoPow_pos _)
      (by
        have hle : f.units (a + 1) ≤ f.units b := f.units_strictMono.monotone hab
        have hsucc := f.units_succ a
        omega)
    obtain ⟨h, hh⟩ := Format.exists_half_of_large
      ((Format.spacing_le_of_le hone).trans (Nat.one_mul _ ▸ hlarge))
    have hsb : s < f.infinity := (Format.nearest_sub_le hs).trans_lt hb
    have hhs : h ≤ s := f.units_strictMono.le_iff_le.mp (by omega)
    have hmid := add_at hlow (half_at hdiff hsb hh) ha (hhs.trans_lt hsb)
    obtain ⟨hle, hle'⟩ := Format.midpoint_between hab hb hs hh rfl
    exact ⟨_, hmid, hle, hle', fun _ hgap => Format.midpoint_strictly_between hone hab hb hs hh rfl hgap,
      fun h => absurd h hb.ne⟩

end Binary

end DifferentialPrivacy
