import DifferentialPrivacy.Proofs.Number.EncodedValue

set_option autoImplicit false

/-!
# Neighbours on the float line

The next value above that of an encoding is that of its step up: the magnitude grows by one above zero
and shrinks by one below it, and the two zeros are left for the first number above them. A magnitude
that grows is below that of infinity, and one that shrinks is not zero, so no step carries into the sign
or out of the encoding.
-/
namespace DifferentialPrivacy.Encoding

variable {f : Format} {w z : Encoding f} {v u : EReal} {n : Int} {p : Nat}

/-! ### One more and one less -/

theorem toNat_one (f : Format) : (1 : Encoding f).toNat = 1 := BitVec.toNat_one (Nat.succ_pos _)

theorem decode_one (f : Format) : (1 : Encoding f).decode = .signed false 1 f.zero_lt_infinity :=
  decode_of_toNat _ ((toNat_one f).trans (Nat.zero_add 1).symm)

section Bits

variable {hp : p ≤ f.infinity}

theorem toNat_of_decode {negative : Bool} (h : w.decode = .signed negative p hp) :
    w.toNat = (if negative then twoPow f.magnitudeBits else 0) + p := by
  obtain ⟨rfl, rfl⟩ := fields_of_decode h
  exact w.toNat_eq

theorem add_one_of_decode (h : w.decode = .signed false p hp) (hlt : p < f.infinity) :
    w.uaddOverflow 1 = false ∧ (w + 1).decode = .signed false (p + 1) hlt := by
  have hw : w.toNat = p := (toNat_of_decode h).trans (Nat.zero_add p)
  have hinside : w.uaddOverflow 1 = false := by
    have hwidth := f.infinity_lt_twoPow
    have hdouble : twoPow (f.magnitudeBits + 1) = twoPow f.magnitudeBits * 2 := twoPow_succ _
    unfold BitVec.uaddOverflow
    rw [toNat_one, decide_eq_false_iff_not, hw]
    change ¬p + 1 ≥ twoPow _
    omega
  refine ⟨hinside, decode_of_toNat _ ?_⟩
  rw [BitVec.toNat_add_of_not_uaddOverflow (Bool.not_eq_true _ ▸ hinside), toNat_one, hw]
  exact (Nat.zero_add _).symm

theorem sub_one_of_decode (h : w.decode = .signed true p hp) (hpos : 0 < p) :
    w.usubOverflow 1 = false ∧ (w - 1).decode = .signed true (p - 1) (p.pred_le.trans hp) := by
  have hw : w.toNat = twoPow f.magnitudeBits + p := toNat_of_decode h
  have hinside : w.usubOverflow 1 = false := by
    unfold BitVec.usubOverflow
    rw [toNat_one, decide_eq_false_iff_not, hw]
    omega
  refine ⟨hinside, decode_of_toNat _ ?_⟩
  rw [BitVec.toNat_sub_of_not_usubOverflow (Bool.not_eq_true _ ▸ hinside), toNat_one, hw]
  exact Nat.add_sub_assoc hpos _

end Bits

/-! ### Steps of encodings as steps of numbers -/

theorem nextUp_of_nan (h : w.decode = .nan) : w.nextUp = w := by
  unfold nextUp
  rw [h]
  exact if_pos (Or.inl rfl)

theorem nextUp_eq (h : w.decode.ordinal? = some n) :
    w.nextUp = if n = f.infinity then w else if n = 0 then 1 else if 0 < n then w + 1 else w - 1 := by
  have hnan : w.decode.isNan = false := by
    cases hw : w.decode with
    | nan => rw [hw] at h; cases h
    | signed negative p hp => rfl
  have hzero : (Binary.zero : Binary f).ordinal? = some 0 := rfl
  have hinfinity : (Binary.infinity : Binary f).ordinal? = some f.infinity := rfl
  unfold nextUp
  simp only [hnan, Bool.false_eq_true, false_or, Binary.eq_iff_of_ordinal h hzero,
    Binary.eq_iff_of_ordinal h hinfinity, Binary.lt_iff_of_ordinal hzero h]

/-- Below zero the steps shrink the magnitude, and both zeros lead to the first number above them. -/
example : nextUp (0x80000001 : Encoding .binary32) = 0x80000000 ∧
    nextUp (0x80000000 : Encoding .binary32) = 1 := by decide +kernel

theorem decode_nextUp (w : Encoding f) : w.nextUp.decode = w.decode.nextUp := by
  cases h : w.decode with
  | nan => rw [nextUp_of_nan h, h]; rfl
  | signed negative p hp =>
    have hinf := f.zero_lt_infinity
    have hordinal : w.decode.ordinal? = some (if negative then -(p : Int) else p) := by rw [h]; rfl
    rw [nextUp_eq hordinal]
    unfold Binary.nextUp
    dsimp only
    -- Encodings run away from zero on both sides, so the sign decides which way the next one lies.
    rcases Nat.eq_zero_or_pos p with rfl | hpos
    · rw [if_neg (by split <;> omega), if_pos (by split <;> rfl), if_pos rfl, decode_one]
    · rw [if_neg hpos.ne']
      cases negative with
      | true =>
        simp only [if_true]
        rw [if_neg (by omega), if_neg (by omega), if_neg (by omega)]
        exact (sub_one_of_decode h hpos).2
      | false =>
        simp only [Bool.false_eq_true, if_false]
        rcases hp.eq_or_lt with rfl | hlt
        · rw [if_pos rfl, dif_neg (Nat.lt_irrefl _), h]
        · rw [if_neg (by omega), if_neg (by omega), if_pos (by omega), dif_pos hlt]
          exact (add_one_of_decode h hlt).2

theorem decode_nextDown (w : Encoding f) : w.nextDown.decode = w.decode.nextDown := by
  unfold nextDown Binary.nextDown
  rw [decode_negate, decode_nextUp, decode_negate]

/-! ### Neighbouring values -/

/-- Among what the encodings of a format stand for, `u` comes next after `v`. -/
structure NextValue (f : Format) (v u : EReal) : Prop where
  lt : v < u
  not_between : ∀ (w : Encoding f) (t : EReal), w.value? = some t → ¬(v < t ∧ t < u)

theorem nextValue_valueAt (hn : n ∈ f.ordinals) (hn' : n + 1 ∈ f.ordinals) :
    NextValue f (f.valueAt n) (f.valueAt (n + 1)) where
  lt := (Format.valueAt_lt_iff hn hn').mpr (lt_add_one n)
  not_between := by
    intro w t hw
    obtain ⟨k, hk, rfl⟩ := value?_eq_some_iff.mp hw
    rw [Format.valueAt_lt_iff hn (Binary.mem_ordinals hk),
      Format.valueAt_lt_iff (Binary.mem_ordinals hk) hn']
    omega

theorem ordinal?_nextUp (h : w.decode.ordinal? = some n) (hn : n < f.infinity) :
    w.nextUp.decode.ordinal? = some (n + 1) := by
  rw [decode_nextUp]
  exact Binary.ordinal?_nextUp h hn

theorem ordinal?_nextDown (h : w.decode.ordinal? = some n) (hn : -f.infinity < n) :
    w.nextDown.decode.ordinal? = some (n - 1) := by
  rw [decode_nextDown]
  exact Binary.ordinal?_nextDown h hn

theorem exists_nextUp (h : w.value? = some v) (hv : v ≠ ⊤) :
    ∃ u, w.nextUp.value? = some u ∧ NextValue f v u := by
  obtain ⟨n, hn, rfl⟩ := value?_eq_some_iff.mp h
  have hmem := Binary.mem_ordinals hn
  have hlt := (Format.valueAt_lt_top_iff hmem).mp (lt_top_iff_ne_top.mpr hv)
  have hnext := ordinal?_nextUp hn hlt
  exact ⟨_, value?_eq_some_iff.mpr ⟨_, hnext, rfl⟩,
    nextValue_valueAt hmem (Binary.mem_ordinals hnext)⟩

theorem exists_nextDown (h : w.value? = some v) (hv : v ≠ ⊥) :
    ∃ u, w.nextDown.value? = some u ∧ NextValue f u v := by
  obtain ⟨n, hn, rfl⟩ := value?_eq_some_iff.mp h
  have hmem := Binary.mem_ordinals hn
  have hlt := (Format.bot_lt_valueAt_iff hmem).mp (bot_lt_iff_ne_bot.mpr hv)
  have hprevious := ordinal?_nextDown hn hlt
  have hnext := nextValue_valueAt (Binary.mem_ordinals hprevious)
    ((sub_add_cancel n 1).symm ▸ hmem)
  rw [sub_add_cancel] at hnext
  exact ⟨_, value?_eq_some_iff.mpr ⟨_, hprevious, rfl⟩, hnext⟩

theorem value?_nextDown_nextUp (h : w.value? = some v) (hv : v < ⊤) :
    w.nextUp.nextDown.value? = some v := by
  obtain ⟨n, hn, rfl⟩ := value?_eq_some_iff.mp h
  have hmem := Binary.mem_ordinals hn
  have hlow := hmem.1
  have hback := ordinal?_nextDown (ordinal?_nextUp hn ((Format.valueAt_lt_top_iff hmem).mp hv))
    (by omega)
  rw [add_sub_cancel_right] at hback
  exact value?_eq_some_iff.mpr ⟨n, hback, rfl⟩

theorem exists_nextUp_le (hw : w.value? = some v) (hz : z.value? = some u) (h : v < u) :
    ∃ t, w.nextUp.value? = some t ∧ t ≤ u := by
  obtain ⟨m, hm, rfl⟩ := value?_eq_some_iff.mp hw
  obtain ⟨n, hn, rfl⟩ := value?_eq_some_iff.mp hz
  have hmem := Binary.mem_ordinals hn
  have hmn := (Format.valueAt_lt_iff (Binary.mem_ordinals hm) hmem).mp h
  have hhigh := hmem.2
  have hnext := ordinal?_nextUp hm (by omega)
  exact ⟨_, value?_eq_some_iff.mpr ⟨_, hnext, rfl⟩,
    (Format.valueAt_le_iff (Binary.mem_ordinals hnext) hmem).mpr (by omega)⟩

theorem value?_nextUp_ne_none (h : w.value? = some v) : w.nextUp.value? ≠ none := by
  rw [ne_eq, value?_eq_none_iff, decode_nextUp, Binary.nextUp_eq_nan_iff, ← value?_eq_none_iff, h]
  exact Option.some_ne_none v

theorem value?_nextDown_ne_none (h : w.value? = some v) : w.nextDown.value? ≠ none := by
  rw [ne_eq, value?_eq_none_iff, decode_nextDown, Binary.nextDown_eq_nan_iff, ← value?_eq_none_iff,
    h]
  exact Option.some_ne_none v

/-! ### Bits that are changed -/

theorem nextUp_fixed (h : w.value? = none ∨ w.value? = some ⊤) : w.nextUp = w := by
  rcases h with h | h
  · exact nextUp_of_nan (value?_eq_none_iff.mp h)
  · obtain ⟨n, hn, htop⟩ := value?_eq_some_iff.mp h
    have hend : n = f.infinity :=
      (Format.valueAt_inj (Binary.mem_ordinals hn) f.infinity_mem_ordinals).mp
        (htop.trans f.valueAt_top.symm)
    rw [nextUp_eq hn, if_pos hend]

theorem nextDown_fixed (h : w.value? = none ∨ w.value? = some ⊥) : w.nextDown = w := by
  have hneg : w.negate.value? = none ∨ w.negate.value? = some ⊤ := by
    rw [value?_negate]
    rcases h with h | h
    · exact Or.inl (congrArg _ h)
    · exact Or.inr (h ▸ congrArg some EReal.neg_bot)
  unfold nextDown
  rw [nextUp_fixed hneg, negate_negate]

/-- The step up of a number with the value `v` is one more or one less on its encoding, unless the number
    is zero or positive infinity. It neither wraps nor touches the sign. -/
structure StepsInWidth (w : Encoding f) (v : EReal) : Prop where
  zero : v = 0 → w.nextUp = 1
  pos : 0 < v → v < ⊤ → w.nextUp = w + 1 ∧ w.uaddOverflow 1 = false ∧ (w + 1).msb = w.msb
  neg : v < 0 → w.nextUp = w - 1 ∧ w.usubOverflow 1 = false ∧ (w - 1).msb = w.msb

theorem stepsInWidth (h : w.value? = some v) : w.StepsInWidth v := by
  obtain ⟨n, hn, rfl⟩ := value?_eq_some_iff.mp h
  have hmem := Binary.mem_ordinals hn
  have hinf := f.zero_lt_infinity
  constructor
  · intro hzero
    have hn0 : n = 0 :=
      (Format.valueAt_inj hmem f.zero_mem_ordinals).mp (hzero.trans f.valueAt_zero.symm)
    rw [nextUp_eq hn, if_neg (by omega), if_pos hn0]
  · intro hpos hlt
    rw [Format.zero_lt_valueAt_iff hmem] at hpos
    rw [Format.valueAt_lt_top_iff hmem] at hlt
    obtain ⟨p, hp, hw, rfl⟩ := Binary.exists_positive_of_ordinal hn hpos
    obtain ⟨hinside, hnext⟩ := add_one_of_decode hw (Int.ofNat_lt.mp hlt)
    refine ⟨?_, hinside, (fields_of_decode hnext).1.trans (fields_of_decode hw).1.symm⟩
    rw [nextUp_eq hn, if_neg hlt.ne, if_neg hpos.ne', if_pos hpos]
  · intro hneg
    rw [Format.valueAt_lt_zero_iff hmem] at hneg
    obtain ⟨p, hp, hw, rfl⟩ := Binary.exists_negative_of_ordinal hn hneg
    obtain ⟨hinside, hnext⟩ := sub_one_of_decode hw (by omega)
    refine ⟨?_, hinside, (fields_of_decode hnext).1.trans (fields_of_decode hw).1.symm⟩
    rw [nextUp_eq hn, if_neg (by omega), if_neg hneg.ne, if_neg hneg.le.not_gt]

/-- A step up leads to the next value of the format and a step down to the one before. A step down undoes
    a step up, and a step up never passes a larger value. On the bits it is one more or one less within
    the width, and no step of a number leads to not-a-number; steps down are those of the other sign. -/
theorem steps_reach_neighbours (f : Format) :
    (∀ w : Encoding f, w.nextUp.decode = w.decode.nextUp ∧
      w.nextDown.decode = w.decode.nextDown ∧ w.value? = w.decode.extended? ∧
      w.negate.value? = w.value?.map (- ·)) ∧
    (∀ (w : Encoding f) v, w.value? = some v →
      (v ≠ ⊤ → ∃ u, w.nextUp.value? = some u ∧ NextValue f v u) ∧
      (v ≠ ⊥ → ∃ u, w.nextDown.value? = some u ∧ NextValue f u v) ∧
      (v < ⊤ → w.nextUp.nextDown.value? = some v) ∧
      (∀ (z : Encoding f) u, z.value? = some u → (w.decode.lt z.decode = true ↔ v < u) ∧
        (v < u → ∃ t, w.nextUp.value? = some t ∧ t ≤ u)) ∧
      w.StepsInWidth v ∧ w.nextUp.value? ≠ none ∧ w.nextDown.value? ≠ none) ∧
    ∀ w : Encoding f, (w.value? = none ∨ w.value? = some ⊤ → w.nextUp = w) ∧
      (w.value? = none ∨ w.value? = some ⊥ → w.nextDown = w) := by
  refine ⟨fun w => ⟨decode_nextUp w, decode_nextDown w, value?_eq w, value?_negate w⟩,
    fun w v hw => ⟨exists_nextUp hw, exists_nextDown hw, value?_nextDown_nextUp hw, ?_,
      stepsInWidth hw, value?_nextUp_ne_none hw, value?_nextDown_ne_none hw⟩,
    fun w => ⟨nextUp_fixed, nextDown_fixed⟩⟩
  intro z u hz
  refine ⟨?_, exists_nextUp_le hw hz⟩
  rw [value?_eq] at hw hz
  exact Binary.lt_iff_extended hw hz

/-- From the smallest number below zero to zero, and from the greatest number to infinity and back. -/
theorem steps_reach_neighbours_ends :
    (∃ v < 0, value? (0x80000001 : Encoding .binary32) = some v ∧
      (nextUp (0x80000001 : Encoding .binary32)).value? = some 0 ∧ NextValue .binary32 v 0 ∧
      nextUp (0x80000001 : Encoding .binary32) = 0x80000001 - 1) ∧
    ∃ v < ⊤, value? (0x7fefffffffffffff : Encoding .binary64) = some v ∧
      (nextUp (0x7fefffffffffffff : Encoding .binary64)).value? = some ⊤ ∧
      NextValue .binary64 v ⊤ ∧
      (nextUp (0x7fefffffffffffff : Encoding .binary64)).nextDown.value? = some v := by
  constructor
  · have hn : (0x80000001 : Encoding .binary32).decode.ordinal? = some (-1) := by decide +kernel
    have hneg := (Format.valueAt_lt_zero_iff (Binary.mem_ordinals hn)).mpr (by decide)
    have hvalue := value?_eq_some_iff.mpr ⟨_, hn, rfl⟩
    obtain ⟨-, hsteps, -⟩ := steps_reach_neighbours .binary32
    obtain ⟨hup, -, -, -, hbits, -⟩ := hsteps _ _ hvalue
    obtain ⟨u, hu, hnext⟩ := hup hneg.ne_top
    have hzero : (nextUp (0x80000001 : Encoding .binary32)).value? = some 0 :=
      value?_eq_some_iff.mpr ⟨0, by decide +kernel, Format.valueAt_zero _⟩
    obtain rfl := Option.some.inj (hu.symm.trans hzero)
    exact ⟨_, hneg, hvalue, hzero, hnext, (hbits.neg hneg).1⟩
  · have hn : (0x7fefffffffffffff : Encoding .binary64).decode.ordinal? = some 0x7fefffffffffffff := by
      decide +kernel
    have hlt := (Format.valueAt_lt_top_iff (Binary.mem_ordinals hn)).mpr (by decide)
    have hvalue := value?_eq_some_iff.mpr ⟨_, hn, rfl⟩
    obtain ⟨-, hsteps, -⟩ := steps_reach_neighbours .binary64
    obtain ⟨hup, -, hback, -⟩ := hsteps _ _ hvalue
    obtain ⟨u, hu, hnext⟩ := hup hlt.ne
    have htop : (nextUp (0x7fefffffffffffff : Encoding .binary64)).value? = some ⊤ :=
      value?_eq_some_iff.mpr ⟨Format.infinity .binary64, by decide +kernel, Format.valueAt_top _⟩
    obtain rfl := Option.some.inj (hu.symm.trans htop)
    exact ⟨_, hlt, hvalue, htop, hnext, hback hlt⟩

end DifferentialPrivacy.Encoding
