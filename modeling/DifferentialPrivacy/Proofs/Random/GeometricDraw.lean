import DifferentialPrivacy.Proofs.Random.Repetition
import DifferentialPrivacy.Proofs.Random.SuccessProbability
import DifferentialPrivacy.Proofs.Number.NearestSquare

set_option autoImplicit false

/-!
# Geometric draws

The set-up of a geometric draw squares the probability of a failure until it is at most one half. From
every probability below one it gets there, and from one it never does. A draw counts no failures from
the last probability of a success below one on, and one whose failures have the rounded probability one
never ends.
-/
namespace DifferentialPrivacy

namespace Geometric
open Binary
open Format (binary64)

/-! ### The set-up -/

/-- A number, squared `n` times. -/
def squares (x : Binary64) (n : Nat) : Binary64 := (fun y => y * y)^[n] x

theorem squares_at {x : Binary64} {p : Nat} (hx : x.At p) (h : p ≤ binary64.one) (n : Nat) :
    (squares x n).At (binary64.square^[n] p) ∧ binary64.square^[n] p ≤ binary64.one := by
  induction n with
  | zero => exact ⟨hx, h⟩
  | succ n ih =>
    unfold squares
    rw [Function.iterate_succ_apply', Function.iterate_succ_apply']
    exact ⟨ih.1.square_at (ih.2.trans_lt (Format.one_lt_infinity _)), Format.square_le_one ih.2⟩

theorem squares_one (n : Nat) : squares .one n = .one := by
  induction n with
  | zero => rfl
  | succ n ih =>
    unfold squares at ih ⊢
    rw [Function.iterate_succ_apply', ih]
    exact Binary.mul_one _

theorem half_at : (Binary.one / Binary.two : Binary64).At
    (binary64.one - twoPow binary64.fractionBits) :=
  Binary.half_at (one_at _) (Format.one_lt_infinity _) (by decide)

/-- Fifty-three squarings after the first bring the largest number below one to one half. -/
theorem squares_le_half {x : Binary64} {p : Nat} (hx : x.At p) (h : p < binary64.one) :
    (Binary.one / Binary.two).lt (squares (x * x) 53) = false := by
  have hone : p ≤ binary64.one - 1 := Nat.le_sub_one_of_lt h
  have hsquare := hx.square_at (h.trans (Format.one_lt_infinity _))
  obtain ⟨hlast, -⟩ := squares_at hsquare (Format.square_le_one h.le) 53
  have hlargest : binary64.square^[53] (binary64.square (binary64.one - 1)) ≤
      binary64.one - twoPow binary64.fractionBits := by decide +kernel
  rw [← Bool.not_eq_true, half_at.lt_iff hlast, not_lt]
  exact (binary64.square_mono.iterate 53 (binary64.square_mono hone)).trans hlargest

/-- The set-up squares as long as it finds more than one half, and no longer. -/
theorem blocks_eq (steps : Nat) (x : Binary64) (shift : Nat) :
    ∃ n ≤ steps, blocks steps x shift = (squares x n, shift + n) ∧
      (∀ j < n, (Binary.one / Binary.two).lt (squares x j) = true) ∧
      (n < steps → (Binary.one / Binary.two).lt (squares x n) = false) := by
  induction steps generalizing x shift with
  | zero => exact ⟨0, le_rfl, rfl, fun j hj => absurd hj j.not_lt_zero, fun h => absurd h (lt_irrefl 0)⟩
  | succ steps ih =>
    unfold blocks
    by_cases hx : (Binary.one / Binary.two).lt x = true
    · rw [if_pos hx]
      obtain ⟨n, hn, hblocks, hbefore, hstop⟩ := ih (x * x) (shift + 1)
      refine ⟨n + 1, Nat.succ_le_succ hn, ?_, ?_, fun h => hstop (Nat.lt_of_succ_lt_succ h)⟩
      · rw [hblocks, Nat.add_assoc, Nat.add_comm 1 n]
        rfl
      · intro j hj
        cases j with
        | zero => exact hx
        | succ j => exact hbefore j (Nat.lt_of_succ_lt_succ hj)
    · rw [if_neg hx]
      exact ⟨0, Nat.zero_le _, rfl, fun j hj => absurd hj j.not_lt_zero,
        fun _ => Bool.eq_false_iff.mpr hx⟩

/-- The draw that is set up for a probability of a success. -/
def setUp (p : Binary64) : Geometric :=
  ⟨p, (blocks 100 ((Binary.one - p) * (Binary.one - p)) 1).1,
    (blocks 100 ((Binary.one - p) * (Binary.one - p)) 1).2⟩

theorem ofProbability?_eq_some {p : Binary64} {n : Nat} (hp : p.At n) (h : n ≤ binary64.one) :
    ofProbability? p = some (setUp p) := by
  have hrange : (Binary.zero.le p && p.le .one) = true := by
    rw [Bool.and_eq_true]
    exact ⟨((zero_at _).le_iff hp).mpr n.zero_le, (hp.le_iff (one_at _)).mpr h⟩
  unfold ofProbability? setUp
  rw [if_pos hrange]

/-- With a probability of a failure below one, blocks of failures have one of at most one half. -/
theorem setUp_at {p : Binary64} {m : Nat} (hf : (Binary.one - p).At m) (h : m < binary64.one) :
    ∃ b, (setUp p).blockFailure.At b ∧ b ≤ binary64.one - twoPow binary64.fractionBits ∧
      1 ≤ (setUp p).shift := by
  obtain ⟨n, -, hblocks, hbefore, hstop⟩ := blocks_eq 100 ((Binary.one - p) * (Binary.one - p)) 1
  have hn : n ≤ 53 := by
    by_contra hlt
    have hlast := hbefore 53 (Nat.not_le.mp hlt)
    rw [squares_le_half hf h] at hlast
    cases hlast
  have hsquare := hf.square_at (h.trans (Format.one_lt_infinity _))
  obtain ⟨hat, -⟩ := squares_at hsquare (Format.square_le_one h.le) n
  have hhalf := hstop (by omega)
  rw [← Bool.not_eq_true, half_at.lt_iff hat, not_lt] at hhalf
  unfold setUp
  rw [hblocks]
  exact ⟨_, hat, hhalf, Nat.le_add_right 1 n⟩

theorem setUp_of_failure_eq_one {p : Binary64} (h : Binary.one - p = .one) :
    (setUp p).blockFailure = .one := by
  obtain ⟨n, -, hblocks, -⟩ := blocks_eq 100 ((Binary.one - p) * (Binary.one - p)) 1
  unfold setUp
  rw [hblocks, h, Binary.mul_one]
  exact squares_one n

/-! ### Draws -/

section Draws

variable {γ : Type} [Generator γ]

theorem unit_of_next {g g' : γ} {w : UInt64} (h : Generator.next64 g = (w, g')) :
    (Draw.unit : Draw γ Binary64) g =
      .ok (.ofRatio _ false (w.toNat / twoPow 11 * twoPow (binary64.unitBits - 53)) 1, g') := by
  have hword : (Draw.word : Draw γ UInt64) g = .ok (w, g') := congrArg Except.ok h
  exact Draw.bind_of_eq_ok hword _

/-- A uniform number has the position that the leading bits of its word spell. -/
theorem exists_unit_at {g g' : γ} {w : UInt64} {p : Nat} (h : Generator.next64 g = (w, g'))
    (hp : p ≤ binary64.infinity)
    (hword : w.toNat / twoPow 11 * twoPow (binary64.unitBits - 53) = binary64.units p) :
    ∃ u, (Draw.unit : Draw γ Binary64) g = .ok (u, g') ∧ u.At p := by
  have hnearest := Format.nearest_units Nat.one_pos hp
  rw [Nat.mul_one, ← hword] at hnearest
  exact ⟨_, unit_of_next h, hnearest ▸ positive_at _⟩

/-- The largest leading bits spell the last number below one. -/
theorem units_last : (twoPow 53 - 1) * twoPow (binary64.unitBits - 53) =
    binary64.units (binary64.one - 1) := by
  obtain ⟨hstep, -⟩ := Format.units_one_pred .binary64
  have hspacing : binary64.spacing (binary64.one - 1) = twoPow (binary64.unitBits - 53) :=
    congrArg twoPow (by decide)
  have hbits : 53 + (binary64.unitBits - 53) = binary64.unitBits := by decide
  rw [Nat.sub_mul, Nat.one_mul, ← twoPow_add, hbits, ← hstep, hspacing, Nat.add_sub_cancel]

/-- Uniform numbers lie below one. -/
theorem exists_unit (g : γ) :
    ∃ u g' n, (Draw.unit : Draw γ Binary64) g = .ok (u, g') ∧ u.At n ∧ n < binary64.one := by
  refine ⟨_, _, _, unit_of_next (Prod.eta (Generator.next64 g)).symm, positive_at _, ?_⟩
  have hword : (Generator.next64 g).1.toNat / twoPow 11 ≤ twoPow 53 - 1 := by
    have hlt := (Generator.next64 g).1.toNat_lt
    have hscale : twoPow 53 * twoPow 11 = 2 ^ 64 := by decide
    rw [← Nat.lt_add_one_iff, Nat.sub_add_cancel (twoPow_pos 53), Nat.div_lt_iff_lt_mul (twoPow_pos 11),
      hscale]
    exact hlt
  refine (Format.nearest_le (p := binary64.one - 1) Nat.one_pos ?_).trans_lt (by decide)
  rw [Nat.mul_one, ← units_last]
  exact Nat.mul_le_mul_right _ hword

theorem failsOnly_word {P : Error → Prop} : (Draw.word : Draw γ UInt64).FailsOnly P := by
  intro g e h
  cases h

theorem failsOnly_unit {P : Error → Prop} : (Draw.unit : Draw γ Binary64).FailsOnly P := by
  intro g e h
  obtain ⟨u, g', n, hu, -⟩ := exists_unit g
  rw [hu] at h
  cases h

/-- Two thirds, rounded to nearest. -/
theorem twoThirds_at : twoThirds.At 0x3fe5555555555555 := by
  have heq : twoThirds = .signed false 0x3fe5555555555555 (by decide) := by decide +kernel
  rw [heq]
  exact positive_at _

variable [Elementary] {G : Geometric}

/-- No uniform number lies above the last number below one. -/
theorem draw_gives_zero {n : Nat} (hp : G.probability.At n) (h : binary64.one ≤ n + 1) :
    (G.draw : Draw γ Nat).Gives 0 := by
  intro g
  obtain ⟨u, g', m, hu, hat, hm⟩ := exists_unit g
  refine ⟨g', ?_⟩
  have hone : 0x3fe5555555555555 + 1 ≤ binary64.one := by decide
  have hzero : ¬G.probability.isZero = true := by
    rw [hp.isZero_iff]
    omega
  have hlarge : twoThirds.le G.probability = true := (twoThirds_at.le_iff hp).mpr (by omega)
  unfold draw
  rw [if_neg hzero, if_pos hlarge]
  apply Draw.countWhile_eq_zero
  refine (Draw.bind_of_eq_ok hu _).trans ?_
  rw [(hat.le_iff hp).mpr (by omega)]
  rfl

theorem draw_fails {n : Nat} (hp : G.probability.At n) (h0 : 0 < n) (h : n ≤ Draw.vanishing)
    (hblock : G.blockFailure = .one) : (G.draw : Draw γ Nat).Fails Draw.exhausted := by
  have hzero : ¬G.probability.isZero = true := fun hz => h0.ne' (hp.isZero_iff.mp hz)
  have hsmall : ¬twoThirds.le G.probability = true := by
    rw [twoThirds_at.le_iff hp, not_le]
    exact h.trans_lt (by decide)
  unfold draw
  rw [if_neg hzero, if_neg hsmall, hblock]
  refine (Draw.countWhile_fails fun g => ?_).bind _
  obtain ⟨u, g', n, hu, hat, hn⟩ := exists_unit g
  refine ⟨g', (Draw.bind_of_eq_ok hu _).trans ?_⟩
  rw [(hat.lt_iff (one_at _)).mpr hn]
  rfl

/-- The only way for a draw to fail is not to end. -/
theorem failsOnly_draw (G : Geometric) : (G.draw : Draw γ Nat).FailsOnly (· = Draw.exhausted) := by
  have hunit : (Draw.unit : Draw γ Binary64).FailsOnly (· = Draw.exhausted) := failsOnly_unit
  have hword : (Draw.word : Draw γ UInt64).FailsOnly (· = Draw.exhausted) := failsOnly_word
  unfold draw
  split
  · exact Draw.failsOnly_pure _
  · split
    · refine Draw.failsOnly_countWhile ?_ rfl
      exact hunit.bind fun u => Draw.failsOnly_pure _
    · refine Draw.FailsOnly.bind ?_ fun quotient => Draw.FailsOnly.bind ?_ fun remainder =>
        Draw.failsOnly_pure _
      · refine Draw.failsOnly_countWhile ?_ rfl
        exact hunit.bind fun u => Draw.failsOnly_pure _
      · refine Draw.failsOnly_untilAccepted ?_ rfl
        exact hword.bind fun w => hunit.bind fun u => Draw.failsOnly_pure _

end Draws

/-! ### Failures that are drawn -/

theorem failures_zero_at [Elementary] (p : Binary64) : (failures p 0).At binary64.one := by
  have heq : failures p 0 = .one := by
    unfold failures powNat
    rw [if_pos (by decide), powNat.go]
    rfl
  rw [heq]
  exact one_at _

theorem failures_one_at [Elementary] {p : Binary64} {m : Nat} (hf : (Binary.one - p).At m)
    (h : m < binary64.infinity) (h0 : 0 < m) : (failures p 1).At m := by
  have heq : failures p 1 = .one * (Binary.one - p) := by
    unfold failures powNat
    rw [if_pos (by decide), powNat.go]
    rfl
  have hproduct := mul_at (one_at _) hf (by decide) h0 (Format.one_lt_infinity _) h
  rw [Format.units_one, Nat.mul_comm, Format.nearest_units (twoPow_pos _) h.le] at hproduct
  rwa [heq]

section Words

variable (words rest : List UInt64)

theorem exists_unit_last : ∃ u, (Draw.unit : Draw Repeating Binary64) ⟨words, (-1) :: rest⟩ =
    .ok (u, ⟨words, rest⟩) ∧ u.At (binary64.one - 1) := by
  have hnext : Generator.next64 (⟨words, (-1) :: rest⟩ : Repeating) = (-1, ⟨words, rest⟩) := rfl
  have hword : (-1 : UInt64).toNat / twoPow 11 = twoPow 53 - 1 := by decide
  exact exists_unit_at hnext (by decide) (hword ▸ units_last)

theorem exists_unit_zero : ∃ u, (Draw.unit : Draw Repeating Binary64) ⟨words, 0 :: rest⟩ =
    .ok (u, ⟨words, rest⟩) ∧ u.At 0 := by
  have hnext : Generator.next64 (⟨words, 0 :: rest⟩ : Repeating) = (0, ⟨words, rest⟩) := rfl
  have hword : (0 : UInt64).toNat / twoPow 11 = 0 := by decide
  refine exists_unit_at hnext (Nat.zero_le _) ?_
  rw [hword, Nat.zero_mul, Format.units_zero]

variable [Elementary] {G : Geometric} {n : Nat} (hp : G.probability.At n) (h0 : 0 < n)
include hp h0

/-- One failure and one success, where failures are counted one by one. -/
theorem draw_counted (hlarge : 0x3fe5555555555555 ≤ n) (h1 : n + 2 ≤ binary64.one) :
    G.draw (⟨words, (-1) :: 0 :: rest⟩ : Repeating) = .ok (1, ⟨words, rest⟩) ∧
      G.draw (⟨words, 0 :: rest⟩ : Repeating) = .ok (0, ⟨words, rest⟩) := by
  have hzero : ¬G.probability.isZero = true := fun hz => h0.ne' (hp.isZero_iff.mp hz)
  have hthirds : twoThirds.le G.probability = true := (twoThirds_at.le_iff hp).mpr hlarge
  obtain ⟨u, hu, hat⟩ := exists_unit_last words (0 :: rest)
  obtain ⟨u', hu', hat'⟩ := exists_unit_zero words rest
  have hfails : (!u.le G.probability) = true := by
    rw [Bool.not_eq_true', ← Bool.not_eq_true, hat.le_iff hp]
    omega
  have hsucceeds : (!u'.le G.probability) = false := by
    rw [Bool.not_eq_false', hat'.le_iff hp]
    exact n.zero_le
  have htrue : (do return !(← Draw.unit).le G.probability : Draw Repeating Bool)
      ⟨words, (-1) :: 0 :: rest⟩ = .ok (true, ⟨words, 0 :: rest⟩) := by
    refine (Draw.bind_of_eq_ok hu _).trans ?_
    rw [hfails]
    rfl
  have hfalse : (do return !(← Draw.unit).le G.probability : Draw Repeating Bool)
      ⟨words, 0 :: rest⟩ = .ok (false, ⟨words, rest⟩) := by
    refine (Draw.bind_of_eq_ok hu' _).trans ?_
    rw [hsucceeds]
    rfl
  unfold draw
  rw [if_neg hzero, if_pos hthirds]
  exact ⟨Draw.countWhile_eq_one htrue hfalse, Draw.countWhile_eq_zero hfalse⟩

/-- `w` modulo the size of a block is the number of failures, if nothing is rejected. -/
theorem draw_in_block {w : UInt64} {b m : Nat} (hsmall : n < 0x3fe5555555555555)
    (hb : G.blockFailure.At b)
    (hhalf : b ≤ binary64.one - twoPow binary64.fractionBits)
    (hm : (failures G.probability (w.toNat % twoPow G.shift)).At m) (hm0 : 0 < m) :
    G.draw (⟨words, (-1) :: w :: 0 :: rest⟩ : Repeating) =
      .ok (w.toNat % twoPow G.shift % twoPow 64, ⟨words, rest⟩) := by
  have hzero : ¬G.probability.isZero = true := fun hz => h0.ne' (hp.isZero_iff.mp hz)
  have hthirds : ¬twoThirds.le G.probability = true := by
    rw [twoThirds_at.le_iff hp, not_le]
    exact hsmall
  obtain ⟨u, hu, hat⟩ := exists_unit_last words (w :: 0 :: rest)
  obtain ⟨u', hu', hat'⟩ := exists_unit_zero words rest
  have hquotient : (do return (← Draw.unit).lt G.blockFailure : Draw Repeating Bool)
      ⟨words, (-1) :: w :: 0 :: rest⟩ = .ok (false, ⟨words, w :: 0 :: rest⟩) := by
    have hlt : u.lt G.blockFailure = false := by
      rw [← Bool.not_eq_true, hat.lt_iff hb, not_lt]
      exact hhalf.trans (by decide)
    refine (Draw.bind_of_eq_ok hu _).trans ?_
    rw [hlt]
    rfl
  have hremainder : (do
      let m := (← Draw.word).toNat % twoPow G.shift
      return if (← Draw.unit).lt (failures G.probability m) then some m else none :
        Draw Repeating (Option Nat)) ⟨words, w :: 0 :: rest⟩ =
      .ok (some (w.toNat % twoPow G.shift), ⟨words, rest⟩) := by
    have hword : (Draw.word : Draw Repeating UInt64) ⟨words, w :: 0 :: rest⟩ =
        .ok (w, ⟨words, 0 :: rest⟩) := rfl
    refine (Draw.bind_of_eq_ok hword _).trans ((Draw.bind_of_eq_ok hu' _).trans ?_)
    rw [if_pos ((hat'.lt_iff hm).mpr hm0)]
    rfl
  unfold draw
  rw [if_neg hzero, if_neg hthirds]
  refine (Draw.bind_of_eq_ok (Draw.countWhile_eq_zero hquotient) _).trans ?_
  refine (Draw.bind_of_eq_ok (Draw.untilAccepted_of_some hremainder) _).trans ?_
  rw [Nat.zero_mul, Nat.zero_add]
  rfl

end Words

/-- There are words for one failure in a first draw and for none in a second. -/
theorem exists_draws [Elementary] {p : Binary64} {n : Nat} (hp : p.At n) (hlow : Draw.vanishing < n)
    (hhigh : n + 2 ≤ binary64.one) : ∃ g g₁ g₂ : Repeating,
      (setUp p).draw g = .ok (1, g₁) ∧ (setUp p).draw g₁ = .ok (0, g₂) := by
  have hn0 : 0 < n := (Nat.zero_le _).trans_lt hlow
  have hat : (setUp p).probability.At n := hp
  rcases Nat.lt_or_ge n 0x3fe5555555555555 with hsmall | hlarge
  · have hfailure := Draw.failure_at hp (by omega)
    have hm0 := Draw.failure_pos (n := n) (by omega)
    have hm1 := (Draw.failure_le_one n).lt_of_ne (Draw.failure_eq_one_iff.not.mpr (Nat.not_le.mpr hlow))
    obtain ⟨b, hb, hhalf, hshift⟩ := setUp_at hfailure hm1
    have hone : (1 : UInt64).toNat % twoPow (setUp p).shift = 1 :=
      Nat.mod_eq_of_lt (Nat.one_lt_two_pow (Nat.one_le_iff_ne_zero.mp hshift))
    have hzero : (0 : UInt64).toNat % twoPow (setUp p).shift = 0 := Nat.zero_mod _
    have hfirst := draw_in_block [] [-1, 0, 0] (w := 1) hat hn0 hsmall hb hhalf
      (hone ▸ failures_one_at hfailure (hm1.trans (Format.one_lt_infinity _)) hm0) hm0
    have hsecond := draw_in_block [] [] (w := 0) (m := binary64.one) hat hn0 hsmall hb hhalf
      (hzero ▸ failures_zero_at p) (by decide)
    rw [hone] at hfirst
    rw [hzero] at hsecond
    exact ⟨_, _, _, hfirst, hsecond⟩
  · have hfirst := draw_counted [] [0] hat hn0 hlarge hhigh
    have hsecond := draw_counted [] [] hat hn0 hlarge hhigh
    exact ⟨_, _, _, hfirst.1, hsecond.2⟩

end Geometric

end DifferentialPrivacy
