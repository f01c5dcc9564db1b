import DifferentialPrivacy.Proofs.Number.DirectedBounds
import DifferentialPrivacy.Proofs.Number.SumError

set_option autoImplicit false

/-!
# Upward operations keep the order

Of two amounts over one denominator, the larger has the nearest position that is no lower. If both have
the same nearest position, the larger one has the larger remainder above it, so it is stepped up
whenever the smaller one is. So the step that the upward operations take on some operands and not on
others never reverses their order.
-/
namespace DifferentialPrivacy

namespace Format

variable {f : Format} {num num' den p q : Nat}

theorem nearest_mono (hden : 0 < den) (h : num ≤ num') : f.nearest num den ≤ f.nearest num' den := by
  obtain ⟨low, hlow, -, hn⟩ := f.nearest_halves num hden
  obtain ⟨low', -, hhigh', hn'⟩ := f.nearest_halves num' hden
  have hle : low < low' + 1 := by
    apply f.units_strictMono.lt_iff_lt.mp
    exact Nat.lt_of_mul_lt_mul_right ((hlow.trans h).trans_lt hhigh')
  rcases (Nat.lt_succ_iff.mp hle).eq_or_lt with rfl | hlt
  · -- Between the same two positions only one amount could be on both sides of the middle.
    rcases hn with ⟨hn, -⟩ | ⟨hn, hmiddle⟩
    · rcases hn' with ⟨hn', -⟩ | ⟨hn', -⟩ <;> omega
    · rcases hn' with ⟨-, hmiddle'⟩ | ⟨hn', -⟩
      · obtain rfl : num = num' := by omega
        exact Nat.le_refl _
      · omega
  · rcases hn with ⟨hn, -⟩ | ⟨hn, -⟩ <;> rcases hn' with ⟨hn', -⟩ | ⟨hn', -⟩ <;> omega

theorem upward_mono (hden : 0 < den) (h : num ≤ num') : f.upward num den ≤ f.upward num' den := by
  have hnearest := nearest_mono (f := f) hden h
  rcases hnearest.eq_or_lt with heq | hlt
  · unfold upward
    rw [heq]
    dsimp only
    split <;> split <;> omega
  · have hup' := f.nearest_le_upward num' den
    unfold upward at hup' ⊢
    dsimp only at hup' ⊢
    split <;> omega

theorem upward_zero (f : Format) (hden : 0 < den) : f.upward 0 den = 0 := by
  have hexact := upward_units (f := f) hden f.zero_le_infinity
  rwa [units_zero, Nat.zero_mul] at hexact

/-- The position of a quotient by the number at `q`, rounded up. -/
def quotientUp (f : Format) (q p : Nat) : Nat :=
  if p = f.infinity then f.infinity else f.upward (f.units p * twoPow f.unitBits) (f.units q)

/-- The position of a square, rounded up. -/
def squareUp (f : Format) (p : Nat) : Nat :=
  if p = f.infinity then f.infinity else f.upward (f.units p * f.units p) (twoPow f.unitBits)

theorem quotientUp_infinity (f : Format) (q : Nat) : f.quotientUp q f.infinity = f.infinity :=
  if_pos rfl

theorem squareUp_infinity (f : Format) : f.squareUp f.infinity = f.infinity := if_pos rfl

theorem quotientUp_of_lt (hp : p < f.infinity) (q : Nat) :
    f.quotientUp q p = f.upward (f.units p * twoPow f.unitBits) (f.units q) := if_neg hp.ne

theorem squareUp_of_lt (hp : p < f.infinity) :
    f.squareUp p = f.upward (f.units p * f.units p) (twoPow f.unitBits) := if_neg hp.ne

theorem quotientUp_zero (hq : 0 < q) : f.quotientUp q 0 = 0 := by
  rw [quotientUp_of_lt f.zero_lt_infinity, units_zero, Nat.zero_mul, upward_zero _ (units_pos hq)]

theorem quotientUp_mono (hq : 0 < q) {p' : Nat} (hp' : p' ≤ f.infinity) (h : p ≤ p') :
    f.quotientUp q p ≤ f.quotientUp q p' := by
  unfold quotientUp
  split
  · rw [if_pos (by omega)]
  · split
    · exact f.upward_le_infinity _ _
    · apply upward_mono (units_pos hq)
      exact Nat.mul_le_mul_right _ (f.units_strictMono.monotone h)

theorem squareUp_mono {p' : Nat} (hp' : p' ≤ f.infinity) (h : p ≤ p') :
    f.squareUp p ≤ f.squareUp p' := by
  have hunits := f.units_strictMono.monotone h
  unfold squareUp
  split
  · rw [if_pos (by omega)]
  · split
    · exact f.upward_le_infinity _ _
    · exact upward_mono (twoPow_pos _) (Nat.mul_le_mul hunits hunits)

end Format

namespace Binary

variable {f : Format} {x y z : Binary f} {p q : Nat}

/-! ### Upward operations on positions -/

theorem At.eq_positive (h : x.At p) (hp : 0 < p) : ∃ hle, x = signed false p hle := by
  obtain ⟨negative, hle, rfl, hzero⟩ := h
  cases negative with
  | false => exact ⟨hle, rfl⟩
  | true => exact absurd (hzero rfl) hp.ne'

theorem positive_at (hp : p ≤ f.infinity) : (signed false p hp).At p :=
  ⟨false, hp, rfl, fun h => (by cases h)⟩

/-- The encoding of a number that is not negative is its position. -/
theorem ofBits_at (hp : p ≤ f.infinity) : (ofBits f p).At p := by
  have hlt : p < twoPow f.magnitudeBits := hp.trans_lt (by cases f <;> decide)
  have heq : ofBits f p = signed false p hp := by
    unfold ofBits
    simp [Nat.mod_eq_of_lt hlt, Nat.div_eq_of_lt hlt, hp]
  exact heq ▸ positive_at hp

theorem At.value_eq (h : x.At p) : x.value = (f.units p : ℚ) / twoPow f.unitBits := by
  unfold value
  rw [h.units_eq, Int.cast_natCast]

theorem At.units_eq_zero (h : x.At 0) : x.units = 0 := by
  rw [h.units_eq, f.units_zero, Nat.cast_zero]

theorem zero_at_of_sign (f : Format) (negative : Bool) :
    (signed negative 0 f.zero_le_infinity).At 0 :=
  ⟨negative, f.zero_le_infinity, rfl, fun _ => rfl⟩

theorem ofRatio_zero (f : Format) (negative : Bool) {den : Nat} (hden : 0 < den) :
    ofRatio f negative 0 den = signed negative 0 f.zero_le_infinity := by
  have hzero := Format.nearest_units (f := f) hden f.zero_le_infinity
  rw [Format.units_zero, Nat.zero_mul] at hzero
  unfold ofRatio
  simp only [hzero]

theorem div_at (hx : x.At p) (hy : y.At q) (hp : p < f.infinity) (hq : q < f.infinity)
    (hq0 : 0 < q) : (x / y).At (f.nearest (f.units p * twoPow f.unitBits) (f.units q)) := by
  obtain ⟨hle, rfl⟩ := hy.eq_positive hq0
  obtain ⟨negative, hle', rfl, hzero⟩ := hx
  change (div _ _).At _
  unfold div
  dsimp only
  rw [if_neg hp.ne, if_neg hq.ne, if_neg hq0.ne', Bool.xor_false]
  cases negative with
  | false => exact positive_at _
  | true =>
    rw [hzero rfl, f.units_zero, Nat.zero_mul, ofRatio_zero f _ (Format.units_pos hq0),
      (Format.nearest_eq_zero_iff (Format.units_pos hq0)).mpr (Nat.zero_le _)]
    exact zero_at_of_sign f true

theorem mul_of_infinite (hx : x.At p) (hy : y.At q) (hp0 : 0 < p) (hq0 : 0 < q)
    (h : p = f.infinity ∨ q = f.infinity) : x * y = infinity := by
  obtain ⟨hple, rfl⟩ := hx.eq_positive hp0
  obtain ⟨hqle, rfl⟩ := hy.eq_positive hq0
  change mul _ _ = _
  unfold mul
  exact (if_pos h).trans (if_neg (not_or.mpr ⟨hp0.ne', hq0.ne'⟩))

theorem mulAdd_of_finite (hx : x.isFinite = true) (hy : y.isFinite = true)
    (hz : z.isFinite = true) : ∃ zeroSign, mulAdd x y z =
      ofUnits f zeroSign (x.units * y.units + z.units * twoPow f.unitBits) (twoPow f.unitBits) := by
  obtain ⟨nx, px, hpx, hxf, rfl⟩ := exists_signed_of_finite hx
  obtain ⟨ny, py, hpy, hyf, rfl⟩ := exists_signed_of_finite hy
  obtain ⟨nz, pz, hpz, hzf, rfl⟩ := exists_signed_of_finite hz
  refine ⟨(nx ^^ ny) && nz, ?_⟩
  unfold mulAdd
  dsimp only
  rw [if_neg (not_or.mpr ⟨hxf.ne, hyf.ne⟩), if_neg hzf.ne]

/-- No remainder is seen of operands that cancel. -/
theorem mulAdd_eq_zero (hx : x.isFinite = true) (hy : y.isFinite = true) (hz : z.isFinite = true)
    (h : x.units * y.units + z.units * twoPow f.unitBits = 0) :
    (mulAdd x y z).eq zero = true ∧ zero.lt (mulAdd x y z) = false := by
  obtain ⟨zeroSign, hsum⟩ := mulAdd_of_finite hx hy hz
  rw [hsum, h]
  cases zeroSign <;> exact ⟨rfl, rfl⟩

/-- A quotient of zero is exact, so no step is taken. -/
theorem divUp_of_zero (hx : x.At 0) (hq : q ≤ f.infinity) (hq0 : 0 < q) (hqf : q < f.infinity) :
    (x.divUp (signed false q hq)).At 0 := by
  have hxf := hx.isFinite_iff.mpr f.zero_lt_infinity
  have hx0 := hx.units_eq_zero
  obtain ⟨negative, hle, rfl, -⟩ := id hx
  have hquotient : signed negative 0 hle / signed false q hq =
      signed negative 0 f.zero_le_infinity := by
    change div _ _ = _
    unfold div
    dsimp only
    rw [if_neg f.zero_lt_infinity.ne, if_neg hqf.ne, if_neg hq0.ne', f.units_zero, Nat.zero_mul,
      ofRatio_zero f _ (Format.units_pos hq0), Bool.xor_false]
  have hremainder := (mulAdd_eq_zero (y := signed false q hq) ((isFinite_neg _).trans hxf)
    (isFinite_positive.mpr hqf) hxf
    (by rw [units_neg, hx0, neg_zero, zero_mul, zero_mul, zero_add])).1
  unfold divUp
  dsimp only
  rw [hquotient, if_neg (fun h => h.2.1 hremainder)]
  exact zero_at_of_sign f negative

theorem At.divUp_at (hx : x.At p) (hq : q ≤ f.infinity) (hq0 : 0 < q) (hqf : q < f.infinity) :
    (x.divUp (signed false q hq)).At (f.quotientUp q p) := by
  rcases Nat.eq_zero_or_pos p with rfl | hp
  · rw [Format.quotientUp_zero hq0]
    exact divUp_of_zero hx hq hq0 hqf
  · obtain ⟨hle, rfl⟩ := hx.eq_positive hp
    rcases hle.eq_or_lt with rfl | hpf
    · rw [f.quotientUp_infinity]
      change ((infinity : Binary f).divUp _).At _
      rw [divUp_infinity hq hqf]
      exact infinity_at f
    · rw [Format.quotientUp_of_lt hpf, divUp_positive hle hq hpf hqf hq0]
      exact positive_at _

theorem mulUp_of_zero (hx : x.At p) (hy : y.At q) (hpf : p < f.infinity) (hqf : q < f.infinity)
    (h : f.units p * f.units q = 0) : (x.mulUp y).At 0 := by
  have hxf := hx.isFinite_iff.mpr hpf
  have hyf := hy.isFinite_iff.mpr hqf
  have hexact : x.units * y.units = 0 := by
    rw [hx.units_eq, hy.units_eq, ← Nat.cast_mul, h, Nat.cast_zero]
  obtain ⟨nx, hp, rfl, -⟩ := id hx
  obtain ⟨ny, hq, rfl, -⟩ := id hy
  have hproduct : signed nx p hp * signed ny q hq = signed (nx ^^ ny) 0 f.zero_le_infinity := by
    change mul _ _ = _
    unfold mul
    dsimp only
    rw [if_neg (not_or.mpr ⟨hpf.ne, hqf.ne⟩), h, ofRatio_zero f _ (twoPow_pos _)]
  have hzero := zero_at_of_sign f (nx ^^ ny)
  have hremainder := (mulAdd_eq_zero hxf hyf
    ((isFinite_neg _).trans (hzero.isFinite_iff.mpr f.zero_lt_infinity))
    (by rw [hexact, units_neg, hzero.units_eq_zero, neg_zero, zero_mul, zero_add])).2
  unfold mulUp
  dsimp only
  rw [hproduct, if_neg (by simp [hremainder])]
  exact hzero

theorem At.mulUp_at (hx : x.At p) (hy : y.At q) (hpf : p < f.infinity) (hqf : q < f.infinity) :
    (x.mulUp y).At (f.upward (f.units p * f.units q) (twoPow f.unitBits)) := by
  by_cases h0 : f.units p * f.units q = 0
  · rw [h0, f.upward_zero (twoPow_pos _)]
    exact mulUp_of_zero hx hy hpf hqf h0
  · have hpos : ∀ r, f.units r ≠ 0 → 0 < r := by
      intro r hr
      rw [Nat.pos_iff_ne_zero]
      rintro rfl
      exact hr f.units_zero
    obtain ⟨hp, rfl⟩ := hx.eq_positive (hpos p (left_ne_zero_of_mul h0))
    obtain ⟨hq, rfl⟩ := hy.eq_positive (hpos q (right_ne_zero_of_mul h0))
    rw [mulUp_positive hp hq hpf hqf]
    exact positive_at _

theorem At.squareUp_at (hx : x.At p) : x.squareUp.At (f.squareUp p) := by
  rcases hx.le_infinity.eq_or_lt with rfl | hpf
  · rw [f.squareUp_infinity, hx.eq_infinity, squareUp_infinity]
    exact infinity_at f
  · rw [Format.squareUp_of_lt hpf]
    exact hx.mulUp_at hx hpf hpf

theorem At.divUp_two_at (hx : x.At p) :
    (x.divUp two).At (f.quotientUp (f.one + twoPow f.fractionBits) p) := by
  rw [two_eq]
  exact hx.divUp_at _ (Nat.add_pos_right _ (twoPow_pos _)) f.one_add_lt_infinity

/-! ### Order -/

/-- `x` is a number that is not negative, and `y` is no less. -/
def Ascending (x y : Binary f) : Prop := ∃ p q, x.At p ∧ y.At q ∧ p ≤ q

theorem ascending_iff : Ascending x y ↔ zero.le x = true ∧ x.le y = true := by
  constructor
  · rintro ⟨p, q, hp, hq, h⟩
    exact ⟨((zero_at f).le_iff hp).mpr (Nat.zero_le p), (hp.le_iff hq).mpr h⟩
  · rintro ⟨h0, h⟩
    obtain ⟨p, hp⟩ := exists_at_of_zero_le h0
    have hy : zero.le y = true := by
      unfold le at h ⊢
      rw [hp.ordinal?_eq] at h
      split at h
      · rename_i m n hm hn
        obtain rfl := Option.some.inj hm
        rw [hn]
        exact decide_eq_true ((Int.natCast_nonneg p).trans (of_decide_eq_true h))
      · cases h
    obtain ⟨q, hq⟩ := exists_at_of_zero_le hy
    exact ⟨p, q, hp, hq, (hp.le_iff hq).mp h⟩

theorem ofInt_at (f : Format) (n : Nat) :
    (ofInt f n).At (f.nearest (n * twoPow f.unitBits) 1) := by
  rw [ofInt_natCast]
  exact positive_at _

theorem Ascending.ofInt (f : Format) {m n : Nat} (h : m ≤ n) :
    Ascending (Binary.ofInt f m) (Binary.ofInt f n) :=
  ⟨_, _, ofInt_at f m, ofInt_at f n,
    Format.nearest_mono Nat.one_pos (Nat.mul_le_mul_right _ h)⟩

theorem Ascending.divUp (h : Ascending x y) (hq : q ≤ f.infinity) (hq0 : 0 < q)
    (hqf : q < f.infinity) : Ascending (x.divUp (signed false q hq)) (y.divUp (signed false q hq)) := by
  obtain ⟨p, p', hp, hp', hle⟩ := h
  exact ⟨_, _, hp.divUp_at hq hq0 hqf, hp'.divUp_at hq hq0 hqf,
    Format.quotientUp_mono hq0 hp'.le_infinity hle⟩

theorem Ascending.squareUp (h : Ascending x y) : Ascending x.squareUp y.squareUp := by
  obtain ⟨p, p', hp, hp', hle⟩ := h
  exact ⟨_, _, hp.squareUp_at, hp'.squareUp_at, Format.squareUp_mono hp'.le_infinity hle⟩

theorem Ascending.divUp_two (h : Ascending x y) : Ascending (x.divUp two) (y.divUp two) := by
  rw [two_eq]
  exact h.divUp _ (Nat.add_pos_right _ (twoPow_pos _)) f.one_add_lt_infinity

end Binary
end DifferentialPrivacy
