import DifferentialPrivacy.Proofs.Dataset.CountStability

set_option autoImplicit false

/-!
# Two ways to scale a distance

A stability map multiplies a distance by a constant either with a product that is checked or with the
plain one. Both take the distance to the type of the constant first, and what either returns is the exact
product. They part where that leaves the type: the checked product is an error there, and the plain one
stops the program.
-/
namespace DifferentialPrivacy

namespace ScaledDistance

variable {t : IntType} {c D : Integer t} {d : Integer .u32}

/-- The plain product of a distance and a constant, as a map of distances. -/
abbrev plain (c : Integer t) (d : Integer .u32) : Result (Integer t) :=
  Transformation.scaleBy .symmetric (.absolute (.int t)) c d

/-- The distance, in the type of the constant. -/
def fitted (d : Integer .u32) (h : d.val ≤ t.max) : Integer t :=
  ⟨d.val, t.min_le_zero.trans d.min_le, h⟩

theorem cast_bind_of_le {β : Type} (h : d.val ≤ t.max) (f : Integer t → Result β) :
    NumType.cast (.int .u32) (.int t) d >>= f = f (fitted d h) := by
  have hcast : NumType.cast (.int .u32) (.int t) d = .ok (fitted d h) :=
    CountStability.cast_eq_ok_iff.mpr rfl
  rw [hcast]
  rfl

theorem cast_bind_of_lt {β : Type} (h : t.max < d.val) (f : Integer t → Result β) :
    NumType.cast (.int .u32) (.int t) d >>= f =
      .error (.failedCast (.number ⟨.int .u32, d⟩ (.int t))) := by
  have hnone : NumType.convert? (.int .u32) (.int t) d = none :=
    Saturation.ofInt?_eq_none_iff.mpr (Or.inr h)
  unfold NumType.cast
  rw [hnone]
  rfl

/-! ### Each way by itself -/

theorem plain_eq_ok_iff : plain c d = .ok D ↔ d.val ≤ t.max ∧ D.val = d.val * c.val := by
  constructor
  · intro h
    obtain ⟨n, hn, h⟩ := bind_eq_ok_iff.mp h
    rw [← CountStability.cast_eq_ok_iff.mp hn]
    exact ⟨n.le_max, Saturation.mul_eq_ok_iff.mp h⟩
  · rintro ⟨hle, hD⟩
    exact (cast_bind_of_le hle _).trans (Saturation.mul_eq_ok_iff.mpr hD)

theorem plain_of_overflow (h : d.val ≤ t.max) (hc : t.max < d.val * c.val) :
    plain c d = .error (.panic .multiplication) :=
  (cast_bind_of_le h _).trans (Saturation.mul_eq_panic hc)

theorem plain_of_lt (h : t.max < d.val) :
    plain c d = .error (.failedCast (.number ⟨.int .u32, d⟩ (.int t))) :=
  cast_bind_of_lt h _

theorem scaledBy_of_lt (h : t.max < d.val) :
    c.scaledBy d = .error (.failedCast (.number ⟨.int .u32, d⟩ (.int t))) :=
  cast_bind_of_lt h _

theorem scaledBy_of_overflow (h : d.val ≤ t.max) (hc : t.max < d.val * c.val) :
    c.scaledBy d = .error (.undefinedMap (.overflow (fitted d h).toNumber c.toNumber)) := by
  have hnone : (fitted d h).checkedMul? c = none :=
    Saturation.ofInt?_eq_none_iff.mpr (Or.inr hc)
  unfold Integer.scaledBy
  rw [cast_bind_of_le h, hnone]
  rfl

/-! ### Both together -/

/-- Both ways succeed or neither does, and what either returns is the exact product. -/
def SucceedAlike (c : Integer t) (d : Integer .u32) : Prop :=
  ((∃ D, plain c d = .ok D) ↔ ∃ D, c.scaledBy d = .ok D) ∧
    ∀ D, plain c d = .ok D ∨ c.scaledBy d = .ok D → D.val = c.val * d.val

theorem succeedAlike (c : Integer t) (d : Integer .u32) : SucceedAlike c d := by
  have hsame : ∀ D, plain c d = .ok D ↔ c.scaledBy d = .ok D := fun D =>
    plain_eq_ok_iff.trans SumStability.scaledBy_eq_ok_iff.symm
  refine ⟨exists_congr hsame, fun D hD => ?_⟩
  rw [hsame D, or_self] at hD
  rw [(SumStability.scaledBy_eq_ok_iff.mp hD).2, mul_comm]

/-- The two ways succeed alike, and where they do not succeed both return an error. -/
structure ScalesAlike (c : Integer t) (d : Integer .u32) : Prop where
  succeed : SucceedAlike c d
  plain_returns : ∀ reason, plain c d ≠ .error (.panic reason)
  checked_returns : ∀ reason, c.scaledBy d ≠ .error (.panic reason)

theorem scalesAlike_of_lt (h : t.max < d.val) : ScalesAlike c d where
  succeed := succeedAlike c d
  plain_returns reason := by
    rw [plain_of_lt h]
    rintro ⟨⟩
  checked_returns reason := by
    rw [scaledBy_of_lt h]
    rintro ⟨⟩

theorem scalesAlike_of_mul_le (hc : 0 ≤ c.val) (hd : d.val ≤ t.max) (h : c.val * d.val ≤ t.max) :
    ScalesAlike c d := by
  have hmin : t.min ≤ c.val * d.val := t.min_le_zero.trans (mul_nonneg hc d.min_le)
  have hplain : plain c d = .ok ⟨c.val * d.val, hmin, h⟩ :=
    plain_eq_ok_iff.mpr ⟨hd, mul_comm _ _⟩
  have hchecked : c.scaledBy d = .ok ⟨c.val * d.val, hmin, h⟩ :=
    SumStability.scaledBy_eq_ok_iff.mpr ⟨hd, mul_comm _ _⟩
  refine ⟨succeedAlike c d, fun reason => ?_, fun reason => ?_⟩
  · rw [hplain]
    rintro ⟨⟩
  · rw [hchecked]
    rintro ⟨⟩

theorem not_scalesAlike (hd : d.val ≤ t.max) (h : t.max < c.val * d.val) : ¬ScalesAlike c d :=
  fun halike => halike.plain_returns _ (plain_of_overflow hd (by rwa [mul_comm]))

theorem scalesAlike_iff (hc : 0 ≤ c.val) :
    ScalesAlike c d ↔ (d.val ≤ t.max → c.val * d.val ≤ t.max) := by
  constructor
  · intro h hd
    by_contra hlt
    exact not_scalesAlike hd (not_le.mp hlt) h
  · intro h
    rcases le_or_gt d.val t.max with hd | hd
    · exact scalesAlike_of_mul_le hc hd (h hd)
    · exact scalesAlike_of_lt hd

/-- The constants that no distance takes out of the type. -/
theorem forall_scalesAlike_iff (hc : 0 ≤ c.val) :
    (∀ d, ScalesAlike c d) ↔ c.val * min t.max IntType.u32.max ≤ t.max := by
  have hmax := t.zero_le_max
  have hwide : (0 : Int) ≤ IntType.u32.max := IntType.u32.zero_le_max
  constructor
  · intro h
    let d : Integer .u32 := ⟨min t.max IntType.u32.max, le_min hmax hwide, min_le_right _ _⟩
    exact (scalesAlike_iff hc).mp (h d) (min_le_left _ _)
  · intro h d
    refine (scalesAlike_iff hc).mpr fun hd => ?_
    exact (mul_le_mul_of_nonneg_left (le_min hd d.le_max) hc).trans h

end ScaledDistance

open ScaledDistance

/-- The plain and the checked product of a constant and a distance succeed together, with the exact
    product. The plain one returns at all unless the distance fits the type and the product does not;
    then the checked one is an error and the plain one stops the program. A distance that does not fit
    is the same error for both. -/
theorem scaledDistance_agrees_iff {t : IntType} {c : Integer t} (hc : 0 ≤ c.val) :
    (∀ d, SucceedAlike c d) ∧
    (∀ d, ScalesAlike c d ↔ (d.val ≤ t.max → c.val * d.val ≤ t.max)) ∧
    ((∀ d, ScalesAlike c d) ↔ c.val * min t.max IntType.u32.max ≤ t.max) ∧
    (∀ d, t.max < d.val → plain c d = c.scaledBy d ∧
      plain c d = .error (.failedCast (.number ⟨.int .u32, d⟩ (.int t)))) ∧
    ∀ d, d.val ≤ t.max → t.max < c.val * d.val →
      plain c d = .error (.panic .multiplication) ∧
      ∃ n, c.scaledBy d = .error (.undefinedMap (.overflow n c.toNumber)) := by
  refine ⟨succeedAlike c, fun d => scalesAlike_iff hc, forall_scalesAlike_iff hc, fun d hd => ?_,
    fun d hd hlt => ⟨?_, ?_⟩⟩
  · exact ⟨(plain_of_lt hd).trans (scaledBy_of_lt hd).symm, plain_of_lt hd⟩
  · exact plain_of_overflow hd (by rwa [mul_comm])
  · exact ⟨_, scaledBy_of_overflow hd (by rwa [mul_comm])⟩

/-- In the smallest type the constant one is exact at every distance, as the maps of counts have it. -/
theorem scaledDistance_agrees_iff_one :
    (∀ d, ScalesAlike (Integer.one : Integer .i8) d) ∧
    plain (Integer.one : Integer .i8) (.clamp .u32 127) = .ok .max := by
  have hone : 0 ≤ (Integer.one : Integer .i8).val := by decide
  exact ⟨(scaledDistance_agrees_iff hone).2.2.1.mpr (by decide), rfl⟩

/-- Two records at a constant of one hundred: the checked product is refused, and at the plain one the
    program stops. -/
theorem scaledDistance_panics :
    plain (.clamp .i8 100) (.clamp .u32 2) = .error (.panic .multiplication) ∧
    (Integer.clamp .i8 100).scaledBy (.clamp .u32 2) =
      .error (.undefinedMap (.overflow (Integer.clamp .i8 2).toNumber
        (Integer.clamp .i8 100).toNumber)) ∧
    ¬ScalesAlike (.clamp .i8 100) (.clamp .u32 2) :=
  ⟨rfl, rfl, not_scalesAlike (by decide) (by decide)⟩

end DifferentialPrivacy
