import DifferentialPrivacy.Proofs.Number.ExactValue

set_option autoImplicit false

/-!
# Differences that a format has

A whole number of spacings of a position, no further from zero than the position, is a position
itself. So the difference of two amounts within a factor of two of each other is held exactly, and so
is what the nearest sum of two amounts falls short by. From these, every intermediate result that the
error of a sum is computed from turns out to be exact, except at most the first one.
-/
namespace DifferentialPrivacy.Format

variable {f : Format} {p q s t n k : Nat}

theorem spacing_dvd_units_of_le (h : p ≤ q) : f.spacing p ∣ f.units q :=
  (Nat.pow_dvd_pow 2 (Nat.sub_le_sub_right (Nat.div_le_div_right h) 1)).trans
    (f.spacing_dvd_units q)

/-- A significand has room for as many spacings as lie below a position. -/
theorem exists_significand (hdvd : f.spacing p ∣ n) (hle : n ≤ f.units p) :
    ∃ h ≤ twoPow (f.fractionBits + 1), n = h * f.spacing p := by
  obtain ⟨h, rfl⟩ := hdvd
  refine ⟨h, ?_, Nat.mul_comm _ _⟩
  apply Nat.le_of_mul_le_mul_left _ (f.spacing_pos p)
  calc
    f.spacing p * h ≤ f.units (p + 1) := hle.trans (f.units_strictMono p.lt_succ_self).le
    _ ≤ twoPow (f.fractionBits + 1) * f.spacing p := f.units_succ_le p
    _ = f.spacing p * twoPow (f.fractionBits + 1) := Nat.mul_comm _ _

theorem exists_units_eq_of_dvd (hdvd : f.spacing p ∣ n) (hle : n ≤ f.units p) :
    ∃ q ≤ p, f.units q = n := by
  obtain ⟨h, hh, rfl⟩ := exists_significand hdvd hle
  have hunits := units_floorPosition_mul hh (p / twoPow f.fractionBits - 1)
  refine ⟨_, f.units_strictMono.le_iff_le.mp ?_, hunits⟩
  exact hunits.trans_le hle

theorem exists_units_eq_two_mul (f : Format) (p : Nat) : ∃ q, f.units q = 2 * f.units p := by
  obtain ⟨h, hh, hp⟩ := exists_significand (f.spacing_dvd_units p) (Nat.le_refl _)
  refine ⟨_, (units_floorPosition_mul hh (p / twoPow f.fractionBits - 1 + 1)).trans ?_⟩
  rw [twoPow_succ, hp]
  unfold spacing
  ring

theorem exists_two_mul_units_eq (hwide : f.spacing p ≠ 1) : ∃ q, 2 * f.units q = f.units p := by
  obtain ⟨h, hh, hp⟩ := exists_significand (f.spacing_dvd_units p) (Nat.le_refl _)
  unfold spacing at hwide hp
  have hshift : p / twoPow f.fractionBits - 1 ≠ 0 := by
    intro h0
    rw [h0] at hwide
    exact hwide rfl
  obtain ⟨e, he⟩ := Nat.exists_eq_succ_of_ne_zero hshift
  refine ⟨f.floorPosition (h * twoPow e), ?_⟩
  rw [units_floorPosition_mul hh e, hp, he, Nat.succ_eq_add_one, twoPow_succ]
  ring

/-- No position is nearer than the nearest one. -/
theorem nearest_within (hn : f.nearest n 1 = s) (hs : s < f.infinity) (h : n ≤ f.units p + k)
    (h' : f.units p ≤ n + k) : n ≤ f.units s + k ∧ f.units s ≤ n + k := by
  obtain ⟨low, hle, hlt, hcases⟩ := f.nearest_halves n Nat.one_pos
  have hside : f.units p ≤ f.units low ∨ f.units (low + 1) ≤ f.units p := by
    rcases Nat.lt_or_ge low p with hp | hp
    · exact Or.inr (f.units_strictMono.le_iff_le.mpr hp)
    · exact Or.inl (f.units_strictMono.le_iff_le.mpr hp)
  rw [hn] at hcases
  rcases hcases with ⟨hlow, hhalf⟩ | ⟨hhigh, hhalf⟩
  · obtain rfl : s = low := by omega
    omega
  · obtain rfl : s = low + 1 := by omega
    omega

/-- Some finite position is as many units from zero as `n`. -/
def Holds (f : Format) (n : Int) : Prop := ∃ p < f.infinity, n.natAbs = f.units p

theorem holds_units (hp : p < f.infinity) : f.Holds (f.units p) := ⟨p, hp, Int.natAbs_natCast _⟩

theorem holds_zero (f : Format) : f.Holds 0 := ⟨0, f.zero_lt_infinity, f.units_zero.symm⟩

theorem holds_of_dvd (hp : p < f.infinity) {d : Int} (hdvd : (f.spacing p : Int) ∣ d)
    (hle : d.natAbs ≤ f.units p) : f.Holds d := by
  obtain ⟨q, hq, hunits⟩ := exists_units_eq_of_dvd (Int.natCast_dvd.mp hdvd) hle
  exact ⟨q, hq.trans_lt hp, hunits.symm⟩

theorem intCast_spacing_dvd (h : p ≤ q) : (f.spacing p : Int) ∣ f.units q :=
  Int.natCast_dvd_natCast.mpr (spacing_dvd_units_of_le h)

theorem holds_sub (hp : p < f.infinity) (hq : q < f.infinity) (hpq : f.units p ≤ 2 * f.units q)
    (hqp : f.units q ≤ 2 * f.units p) : f.Holds (f.units p - f.units q) := by
  rcases Nat.le_total p q with h | h
  · have hunits := f.units_strictMono.le_iff_le.mpr h
    exact holds_of_dvd hp (Int.dvd_sub (intCast_spacing_dvd le_rfl) (intCast_spacing_dvd h))
      (by omega)
  · have hunits := f.units_strictMono.le_iff_le.mpr h
    exact holds_of_dvd hq (Int.dvd_sub (intCast_spacing_dvd h) (intCast_spacing_dvd le_rfl))
      (by omega)

/-- A difference that is no position is more than the operand taken away, and the spacing at the other
    operand is not the first. -/
theorem far_of_inexact (hno : ∀ r ≤ s, f.units r ≠ f.units s - f.units p) (hps : p ≤ s) :
    2 * f.units p < f.units s ∧ f.spacing s ≠ 1 := by
  constructor
  · by_contra hnear
    obtain ⟨r, hr, hunits⟩ := exists_units_eq_of_dvd (p := p) (n := f.units s - f.units p)
      (Nat.dvd_sub (spacing_dvd_units_of_le hps) (f.spacing_dvd_units p)) (by omega)
    exact hno r (hr.trans hps) hunits
  · intro hone
    obtain ⟨r, hr, hunits⟩ := exists_units_eq_of_dvd (p := s) (n := f.units s - f.units p)
      (hone ▸ Nat.one_dvd _) (by omega)
    exact hno r hr hunits

/-! ### What the nearest sum falls short by -/

section Sum

variable (hp : p < f.infinity) (hq : q < f.infinity) (hs : s < f.infinity)
  (hsum : f.nearest (f.units p + f.units q) 1 = s)
include hp hq hsum

theorem le_nearest_sum : p ≤ s ∧ q ≤ s := by
  rw [← hsum]
  exact ⟨le_nearest Nat.one_pos hp.le (by omega), le_nearest Nat.one_pos hq.le (by omega)⟩

include hs

theorem holds_sum_error : f.Holds (f.units p + f.units q - f.units s) := by
  obtain ⟨hps, hqs⟩ := le_nearest_sum hp hq hsum
  -- The smaller operand bounds the error, since the other operand is a position as well.
  rcases Nat.le_total p q with h | h
  · obtain ⟨hlow, hhigh⟩ := nearest_within (p := q) (k := f.units p) hsum hs (by omega) (by omega)
    refine holds_of_dvd hp (Int.dvd_sub (Int.dvd_add ?_ ?_) ?_) (by omega)
    · exact intCast_spacing_dvd le_rfl
    · exact intCast_spacing_dvd h
    · exact intCast_spacing_dvd hps
  · obtain ⟨hlow, hhigh⟩ := nearest_within (p := p) (k := f.units q) hsum hs (by omega) (by omega)
    refine holds_of_dvd hq (Int.dvd_sub (Int.dvd_add ?_ ?_) ?_) (by omega)
    · exact intCast_spacing_dvd h
    · exact intCast_spacing_dvd le_rfl
    · exact intCast_spacing_dvd hqs

/-- The part `t` of the sum that came from `q` may be rounded, but all that is computed from it is
    exact. -/
theorem parts_hold (ht : f.nearest (f.units s - f.units p) 1 = t) :
    t ≤ s ∧ f.Holds (f.units s - f.units t) ∧
      f.Holds (f.units p - (f.units s - f.units t)) ∧ f.Holds (f.units q - f.units t) := by
  obtain ⟨hps, hqs⟩ := le_nearest_sum hp hq hsum
  have hups := f.units_strictMono.le_iff_le.mpr hps
  have huqs := f.units_strictMono.le_iff_le.mpr hqs
  have hts : t ≤ s := by
    rw [← ht]
    exact nearest_le Nat.one_pos (by omega)
  have huts := f.units_strictMono.le_iff_le.mpr hts
  have htinf := hts.trans_lt hs
  refine ⟨hts, ?_⟩
  by_cases hexact : f.units t = f.units s - f.units p
  · have herror := holds_sum_error hp hq hs hsum
    have hrest : (f.units s - f.units t : Int) = f.units p := by omega
    have hlast : (f.units q - f.units t : Int) = f.units p + f.units q - f.units s := by omega
    rw [hrest, sub_self, hlast]
    exact ⟨holds_units hp, holds_zero f, herror⟩
  · have hno : ∀ r ≤ s, f.units r ≠ f.units s - f.units p := by
      intro r hr hunits
      have heq := nearest_units (f := f) Nat.one_pos (hr.trans hs.le)
      rw [Nat.mul_one, hunits, ht] at heq
      exact hexact (heq ▸ hunits)
    obtain ⟨hfar, hwide⟩ := far_of_inexact hno hps
    obtain ⟨half, hhalf⟩ := exists_two_mul_units_eq hwide
    have hht : half ≤ t := by
      have hhs : half ≤ s := f.units_strictMono.le_iff_le.mp (by omega)
      rw [← ht]
      exact le_nearest Nat.one_pos (hhs.trans hs.le) (by omega)
    have huht := f.units_strictMono.le_iff_le.mpr hht
    have hpt : p ≤ t := f.units_strictMono.le_iff_le.mp (by omega)
    have hsq : f.units s ≤ 2 * f.units q := by
      -- The sum is at most twice the larger operand, which `p` is not.
      obtain ⟨p', hp'⟩ := f.exists_units_eq_two_mul p
      obtain ⟨q', hq'⟩ := f.exists_units_eq_two_mul q
      rcases Nat.le_total (f.units p) (f.units q) with h | h
      · have hle : s ≤ q' := hsum ▸ nearest_le Nat.one_pos (by omega)
        have := f.units_strictMono.le_iff_le.mpr hle
        omega
      · have hle : s ≤ p' := hsum ▸ nearest_le Nat.one_pos (by omega)
        have := f.units_strictMono.le_iff_le.mpr hle
        omega
    obtain ⟨hlow, hhigh⟩ := nearest_within (p := s) (k := f.units p) ht htinf (by omega) (by omega)
    refine ⟨holds_sub hs htinf (by omega) (by omega), ?_, holds_sub hq htinf (by omega) (by omega)⟩
    refine holds_of_dvd hp (Int.dvd_sub ?_ (Int.dvd_sub ?_ ?_)) (by omega)
    · exact intCast_spacing_dvd le_rfl
    · exact intCast_spacing_dvd hps
    · exact intCast_spacing_dvd hpt

end Sum

end DifferentialPrivacy.Format
