import DifferentialPrivacy.Number.Machine
import DifferentialPrivacy.Proofs.Number.Saturation
import DifferentialPrivacy.Proofs.Random.Outcome
import DifferentialPrivacy.Proofs.Release.Mechanism

set_option autoImplicit false

/-!
# Where discrete noise is added exactly

Noise that the type can hold is added exactly and clipped at the ends. Noise beyond the type goes to
the end of the type instead, and that is the clipped sum only if the exact sum lies at that end or
past it. Every unsigned type and every type of 64 bits meets the condition for any noise drawn, and
the narrower signed types do not.
-/
namespace DifferentialPrivacy.DiscreteNoise
open Saturation

variable {t : IntType}

/-! ### One number -/

/-- The type holds the magnitude of the noise, or the sum lies at an end of the type or past it. -/
def AddsExactly (x : Integer t) (k : Int) : Prop :=
  |k| ≤ t.max ∨ t.max ≤ x.val + k ∨ x.val + k ≤ t.min

instance (x : Integer t) (k : Int) : Decidable (AddsExactly x k) :=
  inferInstanceAs (Decidable (_ ∨ _ ∨ _))

theorem clamp_eq_max_iff {n : Int} : Integer.clamp t n = .max ↔ t.max ≤ n := by
  have hmin := t.min_le_zero
  have hmax := t.one_le_max
  rw [Integer.ext_iff, val_clamp]
  change _ = t.max ↔ _
  omega

theorem clamp_eq_least_iff {n : Int} : Integer.clamp t n = .least ↔ n ≤ t.min := by
  have hmin := t.min_le_zero
  have hmax := t.one_le_max
  rw [Integer.ext_iff, val_clamp]
  change _ = t.min ↔ _
  omega

theorem max_ne_least : (.max : Integer t) ≠ .least := by
  intro h
  have hmin := t.min_le_zero
  have hmax := t.one_le_max
  have hval : t.max = t.min := congrArg Integer.val h
  omega

theorem addNoise_of_abs_le (x : Integer t) {k : Int} (h : |k| ≤ t.max) :
    x.addNoise k = .clamp t (x.val + k) := by
  have hmin := t.min_le_zero
  rw [abs_le] at h
  unfold Integer.addNoise
  split
  · have hk : Integer.ofInt? t k = some ⟨k, by omega, h.2⟩ := ofInt?_eq_some_iff.mpr rfl
    rw [hk]
    rfl
  · have hk : Integer.ofInt? t k.natAbs = some ⟨k.natAbs, by omega, by omega⟩ :=
      ofInt?_eq_some_iff.mpr rfl
    rw [hk]
    change Integer.clamp t (x.val - k.natAbs) = _
    congr 1
    omega

theorem addNoise_of_max_lt (x : Integer t) {k : Int} (h : t.max < k) : x.addNoise k = .max := by
  have hmax := t.zero_le_max
  unfold Integer.addNoise
  rw [if_pos (by omega), ofInt?_eq_none_iff.mpr (Or.inr h)]

theorem addNoise_of_lt_neg_max (x : Integer t) {k : Int} (h : k < -t.max) :
    x.addNoise k = .least := by
  have hmax := t.zero_le_max
  unfold Integer.addNoise
  rw [if_neg (by omega), ofInt?_eq_none_iff.mpr (Or.inr (by omega))]

theorem abs_le_max_or (t : IntType) (k : Int) : |k| ≤ t.max ∨ t.max < k ∨ k < -t.max := by
  rw [abs_le]
  omega

theorem addNoise_eq_clamp_iff (x : Integer t) (k : Int) :
    x.addNoise k = .clamp t (x.val + k) ↔ AddsExactly x k := by
  have hmin := x.min_le
  have hmax := x.le_max
  have hpos := t.zero_le_max
  unfold AddsExactly
  rcases abs_le_max_or t k with h | h | h
  · exact iff_of_true (addNoise_of_abs_le x h) (Or.inl h)
  · rw [addNoise_of_max_lt x h, eq_comm, clamp_eq_max_iff, abs_le]
    omega
  · rw [addNoise_of_lt_neg_max x h, eq_comm, clamp_eq_least_iff, abs_le]
    omega

theorem addNoise_of_not_addsExactly {x : Integer t} {k : Int} (h : ¬AddsExactly x k) :
    t.max < k ∧ x.addNoise k = .max ∨ k < -t.max ∧ x.addNoise k = .least := by
  rcases abs_le_max_or t k with hk | hk | hk
  · exact absurd (Or.inl hk) h
  · exact Or.inl ⟨hk, addNoise_of_max_lt x hk⟩
  · exact Or.inr ⟨hk, addNoise_of_lt_neg_max x hk⟩

/-- Two numbers with one sum come to the same release unless noise sends just one of them to an end
    of the type, or each of them to an end of its own. -/
theorem addNoise_eq_addNoise_iff {x y : Integer t} {k l : Int} (h : x.val + k = y.val + l) :
    x.addNoise k = y.addNoise l ↔
      AddsExactly x k ∧ AddsExactly y l ∨ t.max < k ∧ t.max < l ∨ k < -t.max ∧ l < -t.max := by
  constructor
  · intro heq
    have hiff : AddsExactly x k ↔ AddsExactly y l := by
      rw [← addNoise_eq_clamp_iff, ← addNoise_eq_clamp_iff, heq, h]
    by_cases hx : AddsExactly x k
    · exact Or.inl ⟨hx, hiff.mp hx⟩
    · rcases addNoise_of_not_addsExactly hx with ⟨hk, hxk⟩ | ⟨hk, hxk⟩ <;>
        rcases addNoise_of_not_addsExactly (mt hiff.mpr hx) with ⟨hl, hyl⟩ | ⟨hl, hyl⟩
      · exact Or.inr (Or.inl ⟨hk, hl⟩)
      · exact absurd (hxk.symm.trans (heq.trans hyl)) max_ne_least
      · exact absurd (hyl.symm.trans (heq.symm.trans hxk)) max_ne_least
      · exact Or.inr (Or.inr ⟨hk, hl⟩)
  · rintro (⟨hx, hy⟩ | ⟨hk, hl⟩ | ⟨hk, hl⟩)
    · rw [(addNoise_eq_clamp_iff x k).mpr hx, (addNoise_eq_clamp_iff y l).mpr hy, h]
    · rw [addNoise_of_max_lt x hk, addNoise_of_max_lt y hl]
    · rw [addNoise_of_lt_neg_max x hk, addNoise_of_lt_neg_max y hl]

/-- The noise that a discrete mechanism draws. -/
def InRange (k : Int) : Prop := IntType.i64.min < k ∧ k ≤ IntType.i64.max

instance (k : Int) : Decidable (InRange k) := inferInstanceAs (Decidable (_ ∧ _))

theorem forall_addsExactly_iff (t : IntType) :
    (∀ (x : Integer t) (k : Int), InRange k → AddsExactly x k) ↔
      t.isSigned = false ∨ t.bits = 64 := by
  constructor
  · intro h
    -- The least number as noise has no magnitude in a signed type, and brings the greatest to -1.
    have hx := h .max t.min
    revert hx
    cases t <;> decide
  · intro h x k hk
    have hmin := x.min_le
    have hmax := x.le_max
    have ht : t.min = 0 ∨ t.max = IntType.i64.max ∧ IntType.i64.min = -IntType.i64.max - 1 := by
      revert h
      cases t <;> decide
    unfold InRange at hk
    unfold AddsExactly
    rw [abs_le]
    omega

/-! ### The noise drawn -/

section Draws

variable {γ : Type} [Generator γ] [Elementary]

theorem always_discreteLaplace (scale : Binary64) :
    Draw.Always (Draw.discreteLaplace scale : Draw γ Int) InRange := by
  have hlimit : (Draw.sideLimit : Int) = IntType.i64.max := by decide
  have hmin : IntType.i64.min = -IntType.i64.max - 1 := by decide
  have hmax := IntType.i64.zero_le_max
  unfold Draw.discreteLaplace InRange
  split
  · exact Draw.always_pure (by omega)
  · split
    · exact Draw.always_throw _
    · dsimp only
      split
      · exact Draw.always_throw _
      · refine (Draw.always_trivial _).bind ?_
        intro positive _
        refine (Draw.always_trivial _).bind ?_
        intro negative _
        exact Draw.always_pure (by omega)

theorem always_discreteGaussian (scale : Binary64) :
    Draw.Always (Draw.discreteGaussian scale : Draw γ Int) InRange := by
  unfold Draw.discreteGaussian
  dsimp only
  split
  · exact Draw.always_pure (by decide)
  · apply Draw.always_untilAccepted
    refine (always_discreteLaplace _).bind ?_
    intro y hy
    refine (Draw.always_trivial _).bind ?_
    intro accepted _
    apply Draw.always_pure
    intro k hk
    split at hk
    · cases hk
      exact hy
    · cases hk

end Draws

/-! ### A list of numbers -/

def noisy (xs : List (Integer t)) (ks : List Int) : List (Integer t) :=
  List.zipWith Integer.addNoise xs ks

def sums (xs : List (Integer t)) (ks : List Int) : List Int :=
  List.zipWith (fun x k => x.val + k) xs ks

theorem noisy_eq_clamp_sums_iff (xs : List (Integer t)) (ks : List Int) :
    noisy xs ks = (sums xs ks).map (.clamp t) ↔ ∀ e ∈ xs.zip ks, AddsExactly e.1 e.2 := by
  unfold noisy sums
  induction xs generalizing ks with
  | nil => simp
  | cons x xs ih =>
    cases ks with
    | nil => simp
    | cons k ks =>
      rw [List.zipWith_cons_cons, List.zipWith_cons_cons, List.map_cons, List.cons.injEq,
        addNoise_eq_clamp_iff, ih, List.zip_cons_cons, List.forall_mem_cons]

def adding {γ : Type} (noise : Draw γ Int) (x : Integer t) : Draw γ (Integer t) := do
  return x.addNoise (← noise)

theorem perturbNumber_int {γ : Type} (noise : Draw γ Int) (x : Integer t) :
    (Value.int x).perturbNumber (.int t) (adding noise) =
      (do return .int (x.addNoise (← noise)) : Draw γ Value) := by
  unfold Value.int Value.perturbNumber adding
  simp

theorem perturb_ofIntegers {γ : Type} (noise : Draw γ Int) (xs : List (Integer t)) :
    (Value.ofIntegers xs).perturb (.int t) (adding noise) =
      (do return .ofIntegers (noisy xs (← noise.times xs.length)) : Draw γ Value) := by
  have hatoms : Value.perturbNumber (.int t) (adding noise) ∘ Value.int =
      fun x : Integer t => (do return .int (x.addNoise (← noise)) : Draw γ Value) :=
    funext fun x => perturbNumber_int noise x
  unfold Value.ofIntegers Value.perturb noisy
  dsimp only
  rw [List.mapM_map, hatoms,
    Draw.mapM_eq_times (fun (x : Integer t) k => Value.int (x.addNoise k)) noise]
  simp [List.map_zipWith]

/-! ### The mechanisms -/

section Mechanisms

variable {m : Metric} {μ : Measure}

/-- A mechanism that releases every list with one draw of noise for each number. -/
structure Releases (t : IntType) (noise : Draw ChaCha Int) (M : Measurement m μ) : Prop where
  invoke_eq : ∀ (entropy : Entropy) (xs : List (Integer t)), M.invoke entropy (.ofIntegers xs) =
    (do return .ofIntegers (noisy xs (← drawing noise.times entropy xs.length)))
  draws : ∀ (entropy : Entropy) (n : Nat) (ks : List Int), drawing noise.times entropy n = .ok ks →
    ks.length = n ∧ ∀ k ∈ ks, InRange k

theorem Releases.of_perturb {noise : Draw ChaCha Int} (h : noise.Always InRange)
    (loss : m.Distance → Result μ.Loss) : Releases t noise
      { inputDomain := .vectorOf (.num (.int t))
        outputDomain := .vectorOf (.num (.int t))
        function := drawing (Value.perturb (.int t) (adding noise))
        privacyMap := loss : Measurement m μ } where
  invoke_eq entropy xs := by
    unfold Measurement.invoke invokeBetween
    dsimp only
    rw [if_pos (Domain.contains_ofIntegers xs),
      Draw.drawing_eq_map noise.times xs.length _ (perturb_ofIntegers noise xs)]
    cases drawing noise.times entropy xs.length with
    | error e => rfl
    | ok ks => exact if_pos (Domain.contains_ofIntegers (noisy xs ks))
  draws entropy n ks hks := Draw.of_drawing_eq_ok (Draw.always_times h n) hks

theorem of_discreteLaplace_eq_ok [Elementary] {caps : Capabilities} {f : Format} {scale : Binary f}
    {M : Measurement (.l1 (.int t)) (.maxDivergence f)}
    (h : Measurement.discreteLaplace caps .vector t f scale = .ok M) :
    Releases t (Draw.discreteLaplace (scale.convert _)) M := by
  obtain ⟨-, -, rfl⟩ := Measurement.discreteLaplace_eq_ok_iff.mp h
  exact Releases.of_perturb (always_discreteLaplace _) _

theorem of_discreteGaussian_eq_ok [Elementary] {caps : Capabilities} {f : Format} {scale : Binary f}
    {M : Measurement (.l2 (.int t)) (.zeroConcentratedDivergence f)}
    (h : Measurement.discreteGaussian caps .vector t f scale = .ok M) :
    Releases t (Draw.discreteGaussian (scale.convert _)) M := by
  obtain ⟨-, -, rfl⟩ := Measurement.discreteGaussian_eq_ok_iff.mp h
  exact Releases.of_perturb (always_discreteGaussian _) _

/-- Noise is added exactly and then clipped, to one number and to each number of a list, if and only
    if `AddsExactly` says so. For the noise that the mechanisms draw it always does with an unsigned
    type or one of 64 bits, and with no other. -/
theorem discreteNoise_clips_iff [Elementary] (t : IntType) :
    (∀ (x : Integer t) (k : Int), x.addNoise k = .clamp t (x.val + k) ↔ AddsExactly x k) ∧
    (∀ (x y : Integer t) (k l : Int), x.val + k = y.val + l → (x.addNoise k = y.addNoise l ↔
      AddsExactly x k ∧ AddsExactly y l ∨ t.max < k ∧ t.max < l ∨ k < -t.max ∧ l < -t.max)) ∧
    ((∀ (x : Integer t) (k : Int), InRange k → x.addNoise k = .clamp t (x.val + k)) ↔
      t.isSigned = false ∨ t.bits = 64) ∧
    (∀ (xs : List (Integer t)) (ks : List Int),
      noisy xs ks = (sums xs ks).map (.clamp t) ↔ ∀ e ∈ xs.zip ks, AddsExactly e.1 e.2) ∧
    (∀ (caps : Capabilities) (f : Format) (scale : Binary f) M,
      Measurement.discreteLaplace caps .vector t f scale = .ok M →
        Releases t (Draw.discreteLaplace (scale.convert _)) M) ∧
    ∀ (caps : Capabilities) (f : Format) (scale : Binary f) M,
      Measurement.discreteGaussian caps .vector t f scale = .ok M →
        Releases t (Draw.discreteGaussian (scale.convert _)) M := by
  refine ⟨addNoise_eq_clamp_iff, fun x y k l => addNoise_eq_addNoise_iff, ?_,
    noisy_eq_clamp_sums_iff, fun _ _ _ _ => of_discreteLaplace_eq_ok,
    fun _ _ _ _ => of_discreteGaussian_eq_ok⟩
  simp only [addNoise_eq_clamp_iff]
  exact forall_addsExactly_iff t

/-- At scale one both mechanisms are built for the smallest type. -/
theorem discreteNoise_clips_iff_i8 :
    (Integer.clamp .i8 100).addNoise 127 = .clamp .i8 227 ∧
    (∃ M, @Measurement.discreteLaplace Elementary.machine .all .vector .i8 .binary64 .one = .ok M ∧
      Releases .i8 (@Draw.discreteLaplace ChaCha _ Elementary.machine
        ((.one : Binary64).convert .binary64)) M) ∧
    ∃ M, @Measurement.discreteGaussian Elementary.machine .all .vector .i8 .binary64 .one = .ok M ∧
      Releases .i8 (@Draw.discreteGaussian ChaCha _ Elementary.machine
        ((.one : Binary64).convert .binary64)) M := by
  obtain ⟨hone, _, _, _, hlaplace, hgaussian⟩ := @discreteNoise_clips_iff Elementary.machine .i8
  refine ⟨(hone _ _).mpr (by decide), ?_, ?_⟩
  · exact ⟨_, rfl, hlaplace .all _ .one _ rfl⟩
  · exact ⟨_, rfl, hgaussian .all _ .one _ rfl⟩

/-- The magnitude of the least noise that a signed type holds is beyond the type, so it sends the
    greatest number to the least, and not to minus one. -/
theorem addNoise_ne_clamp_i8 :
    ¬(∀ (t : IntType) (x : Integer t) (k : Int), InRange k →
      x.addNoise k = .clamp t (x.val + k)) ∧
    ¬∀ (t : IntType) (x y : Integer t) (k l : Int), InRange k → InRange l →
      x.val + k = y.val + l → x.addNoise k = y.addNoise l := by
  constructor
  · intro h
    have hx := h .i8 .max (-128) (by decide)
    revert hx
    decide
  · intro h
    have hx := h .i8 .max (.clamp _ 126) (-128) (-127) (by decide) (by decide) (by decide)
    revert hx
    decide

end Mechanisms

end DifferentialPrivacy.DiscreteNoise
