import DifferentialPrivacy.Proofs.Dataset.SumStability

set_option autoImplicit false

/-!
# Sums in any order

A single accumulator and the two parts of a split sum give one number for data of one sign, which is
the exact total moved into the type. For data of both signs the parts clip at one end each, and what
they add up to needs no clipping. Neither number depends on the order of the data, so no release of
either does, also where it is refused.
-/
namespace DifferentialPrivacy.SumAgreement
open ClippedSum

variable {t : IntType} {u v xs : List (Integer t)}

def exactTotal (xs : List (Integer t)) : Int := (xs.map Integer.val).sum

/-- A zero goes with either sign. -/
def OneSigned (xs : List (Integer t)) : Prop := (∀ x ∈ xs, 0 ≤ x.val) ∨ ∀ x ∈ xs, x.val ≤ 0

instance (xs : List (Integer t)) : Decidable (OneSigned xs) :=
  inferInstanceAs (Decidable ((∀ x ∈ xs, 0 ≤ x.val) ∨ ∀ x ∈ xs, x.val ≤ 0))

theorem OneSigned.of_perm (h : OneSigned u) (huv : u.Perm v) : OneSigned v :=
  h.imp (fun hu x hx => hu x (huv.mem_iff.mpr hx)) fun hu x hx => hu x (huv.mem_iff.mpr hx)

/-! ### Values -/

/-- With one sign, only the part of that sign can clip. -/
theorem clippedTotal_of_oneSigned (h : OneSigned xs) :
    clippedTotal xs = (Integer.clamp t (exactTotal xs)).val := by
  have hmin := t.min_le_zero
  have hmax := t.zero_le_max
  rw [Saturation.val_clamp]
  unfold clippedTotal exactTotal
  rcases h with h | h
  · have hsum := Saturation.sum_nonneg xs h
    rw [negatives_of_nonneg xs h, nonnegatives_of_nonneg xs h]
    omega
  · have hsum := Saturation.sum_nonpos xs h
    rw [negatives_of_nonpos xs h, nonnegatives_of_nonpos xs h]
    omega

theorem splitSum_of_oneSigned (h : OneSigned xs) :
    Integer.splitSum xs = .clamp t (exactTotal xs) :=
  Integer.ext ((val_splitSum xs).trans (clippedTotal_of_oneSigned h))

theorem monotonicSum_of_oneSigned (h : OneSigned xs) :
    Integer.monotonicSum xs = Integer.splitSum xs :=
  Integer.ext ((val_monotonicSum xs h).trans (val_splitSum xs).symm)

/-- The parts lie between zero and an end of the type each, so both ends are out of reach. -/
theorem val_splitSum_eq_add_parts (xs : List (Integer t)) : (Integer.splitSum xs).val =
    (Integer.splitParts xs).1.val + (Integer.splitParts xs).2.val := by
  rw [val_splitSum, (val_splitParts xs).1, (val_splitParts xs).2]
  rfl

theorem val_splitSum_of_fits (hneg : t.min ≤ negatives xs) (hpos : nonnegatives xs ≤ t.max) :
    (Integer.splitSum xs).val = exactTotal xs := by
  have htotal := nonnegatives_add_negatives xs
  rw [val_splitSum]
  unfold clippedTotal exactTotal
  omega

/-! ### Order -/

theorem negatives_of_perm (h : u.Perm v) : negatives u = negatives v := by
  unfold negatives
  exact ((h.filter _).map _).sum_eq

theorem nonnegatives_of_perm (h : u.Perm v) : nonnegatives u = nonnegatives v := by
  unfold nonnegatives
  exact ((h.filter _).map _).sum_eq

theorem splitSum_of_perm (h : u.Perm v) : Integer.splitSum u = Integer.splitSum v := by
  apply Integer.ext
  rw [val_splitSum, val_splitSum]
  unfold clippedTotal
  rw [negatives_of_perm h, nonnegatives_of_perm h]

theorem monotonicSum_of_perm (hu : OneSigned u) (h : u.Perm v) :
    Integer.monotonicSum u = Integer.monotonicSum v := by
  rw [monotonicSum_of_oneSigned hu, monotonicSum_of_oneSigned (hu.of_perm h), splitSum_of_perm h]

/-- What passed the check of the signs is summed to one number in every order. -/
theorem sum_of_perm {method : SumMethod} {lower upper : Integer t}
    (hsign : method.checkSigns lower upper = .ok ()) (hu : Between lower upper u) (h : u.Perm v) :
    method.sum u = method.sum v := by
  cases method with
  | split => exact splitSum_of_perm h
  | monotonic => exact monotonicSum_of_perm (oneSigned_of_between hsign hu) h

/-! ### Releases -/

section Transformations

variable {method : SumMethod} {caps : Capabilities} {size : Nat} {lower upper : Integer t}
  {T : Transformation .symmetric (.absolute (.int t))}

theorem invokeBetween_sum_of_perm {domain : Domain}
    (hd : domain.contains (.ofIntegers u) = domain.contains (.ofIntegers v))
    (hs : domain.contains (.ofIntegers u) = true → method.sum u = method.sum v) :
    invokeBetween domain (.all (.num (.int t)))
        (fun x => .ok (.int (method.sum (x.integers t)))) (.ofIntegers u) =
      invokeBetween domain (.all (.num (.int t)))
        (fun x => .ok (.int (method.sum (x.integers t)))) (.ofIntegers v) := by
  cases hu : domain.contains (.ofIntegers u) with
  | true =>
    rw [SumStability.invokeBetween_sum hu, SumStability.invokeBetween_sum (hd ▸ hu), hs hu]
  | false =>
    unfold invokeBetween
    rw [← hd, hu]
    rfl

theorem contains_of_perm (i : Interval (.int t)) (h : u.Perm v) :
    (Domain.vector (.bounded (.int t) i)).contains (.ofIntegers u) =
      (Domain.vector (.bounded (.int t) i)).contains (.ofIntegers v) := by
  rw [Bool.eq_iff_iff, Domain.bounded_contains_ofIntegers_iff,
    Domain.bounded_contains_ofIntegers_iff]
  exact forall_congr' fun x => imp_congr_left h.mem_iff

theorem between_of_contains {i : Interval (.int t)}
    (hi : Interval.ofBounds (.int t) lower upper = .ok i)
    (hu : (Domain.vector (.bounded (.int t) i)).contains (.ofIntegers u) = true) :
    Between lower upper u := by
  obtain ⟨rfl, rfl⟩ := Interval.of_ofBounds_eq_ok hi
  exact (Domain.bounded_contains_ofIntegers_iff i u).mp hu

theorem sized_contains_ofIntegers (domain : Domain) (size : Nat) (u : List (Integer t)) :
    (Domain.sized domain size).contains (.ofIntegers u) =
      (decide (u.length = size) && domain.contains (.ofIntegers u)) := by
  rw [Domain.contains, Value.size?_ofIntegers]
  simp only [Option.some.injEq]

theorem invoke_boundedSum_of_perm
    (hT : Transformation.boundedSum method caps t lower upper = .ok T) (h : u.Perm v) :
    T.invoke (.ofIntegers u) = T.invoke (.ofIntegers v) := by
  obtain ⟨hsign, i, s, hi, -, rfl⟩ := SumStability.of_boundedSum_eq_ok hT
  apply invokeBetween_sum_of_perm (contains_of_perm i h)
  exact fun hu => sum_of_perm hsign (between_of_contains hi hu) h

theorem invoke_sizedBoundedSum_of_perm
    (hT : Transformation.sizedBoundedSum method caps size t lower upper = .ok T) (h : u.Perm v) :
    T.invoke (.ofIntegers u) = T.invoke (.ofIntegers v) := by
  obtain ⟨hsign, i, r, hi, -, rfl⟩ := SumStability.of_sizedBoundedSum_eq_ok hT
  apply invokeBetween_sum_of_perm
  · rw [sized_contains_ofIntegers, sized_contains_ofIntegers, contains_of_perm i h, h.length_eq]
  · intro hu
    rw [sized_contains_ofIntegers, Bool.and_eq_true] at hu
    exact sum_of_perm hsign (between_of_contains hi hu.2) h

/-- `T` sums records between two bounds, any number of them or a prescribed one. -/
def SumsBetween (method : SumMethod) (lower upper : Integer t)
    (T : Transformation .symmetric (.absolute (.int t))) : Prop :=
  ∃ caps, Transformation.boundedSum method caps t lower upper = .ok T ∨
    ∃ size, Transformation.sizedBoundedSum method caps size t lower upper = .ok T

theorem SumsBetween.checkSigns (hT : SumsBetween method lower upper T) :
    method.checkSigns lower upper = .ok () := by
  obtain ⟨caps, hT | ⟨size, hT⟩⟩ := hT
  · exact (SumStability.of_boundedSum_eq_ok hT).1
  · exact (SumStability.of_sizedBoundedSum_eq_ok hT).1

theorem SumsBetween.invoke_of_perm (hT : SumsBetween method lower upper T) (h : u.Perm v) :
    T.invoke (.ofIntegers u) = T.invoke (.ofIntegers v) := by
  obtain ⟨caps, hT | ⟨size, hT⟩⟩ := hT
  · exact invoke_boundedSum_of_perm hT h
  · exact invoke_sizedBoundedSum_of_perm hT h

end Transformations

/-- Of data of one sign both methods make the exact total, moved into the type. Of any data the split
    sum is made of the exact sums of the two signs, each moved into the type; adding them clips
    nothing, and if both fit they add up to the exact total. No order of the data changes a sum
    between bounds that its method accepts, nor what becomes of data that is no member. -/
theorem sums_clip_exactTotal (xs : List (Integer t)) :
    (OneSigned xs → Integer.monotonicSum xs = Integer.splitSum xs ∧
      Integer.splitSum xs = .clamp t (exactTotal xs)) ∧
    (Integer.splitSum xs).val = min (nonnegatives xs) t.max + max (negatives xs) t.min ∧
    (Integer.splitSum xs).val =
      (Integer.splitParts xs).1.val + (Integer.splitParts xs).2.val ∧
    (t.min ≤ negatives xs → nonnegatives xs ≤ t.max →
      (Integer.splitSum xs).val = exactTotal xs) ∧
    ∀ ys, xs.Perm ys → Integer.splitSum xs = Integer.splitSum ys ∧
      ∀ (method : SumMethod) (lower upper : Integer t) T, SumsBetween method lower upper T →
        (Between lower upper xs → method.sum xs = method.sum ys) ∧
          T.invoke (.ofIntegers xs) = T.invoke (.ofIntegers ys) := by
  refine ⟨fun h => ⟨monotonicSum_of_oneSigned h, splitSum_of_oneSigned h⟩, ?_,
    val_splitSum_eq_add_parts xs, val_splitSum_of_fits, ?_⟩
  · rw [val_splitSum]
    unfold clippedTotal
    omega
  · intro ys h
    refine ⟨splitSum_of_perm h, fun method lower upper T hT => ⟨fun hxs => ?_, ?_⟩⟩
    · exact sum_of_perm hT.checkSigns hxs h
    · exact hT.invoke_of_perm h

/-- Negative numbers that clip, and both signs in two orders where only the positive part clips. -/
theorem sums_clip_exactTotal_i8 :
    Integer.monotonicSum (t := .i8) [.clamp _ (-100), .clamp _ (-100)] = .clamp _ (-200) ∧
    (Integer.splitSum (t := .i8) [.clamp _ (-100), .clamp _ 127, .clamp _ 127]).val = 27 ∧
    ∃ T, SumsBetween (t := .i8) .split (.clamp _ (-100)) (.clamp _ 127) T ∧
      T.invoke (.ofIntegers [.clamp .i8 (-100), .clamp _ 127, .clamp _ 127]) =
        T.invoke (.ofIntegers [.clamp .i8 127, .clamp _ (-100), .clamp _ 127]) := by
  have hT : Transformation.boundedSum .split .all .i8 (.clamp _ (-100)) (.clamp _ 127) = .ok _ := rfl
  obtain ⟨hsame, hclamp⟩ :=
    (sums_clip_exactTotal (t := .i8) [.clamp _ (-100), .clamp _ (-100)]).1 (by decide)
  obtain ⟨-, hsplit, -, -, horder⟩ :=
    sums_clip_exactTotal (t := .i8) [.clamp _ (-100), .clamp _ 127, .clamp _ 127]
  have hperm := horder [.clamp _ 127, .clamp _ (-100), .clamp _ 127] (by decide)
  refine ⟨hsame.trans hclamp, hsplit, _, ⟨.all, Or.inl hT⟩, ?_⟩
  exact (hperm.2 _ _ _ _ ⟨.all, Or.inl hT⟩).2

end DifferentialPrivacy.SumAgreement
