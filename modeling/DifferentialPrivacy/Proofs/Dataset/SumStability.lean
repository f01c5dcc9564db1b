import DifferentialPrivacy.Proofs.Dataset.ClippedSum
import DifferentialPrivacy.Proofs.Dataset.Records
import DifferentialPrivacy.Proofs.Metric.SymmetricDistance

set_option autoImplicit false

/-!
# Stability of the integer sums

Datasets of any size that are `d` records apart have sums at most `d` times the larger magnitude of
the bounds apart, and no smaller bound holds. Datasets of one size differ by at most `d / 2`
substitutions, each of which moves the sum by at most the width of the bounds. Clipping never
enlarges a difference, and the two parts of a sum move apart only if the exact parts do.
-/
namespace DifferentialPrivacy.SumStability
open ClippedSum

variable {t : IntType}

/-! ### The parameters of a sum -/

theorem val_magnitude {x m : Integer t} (h : x.magnitude = .ok m) : m.val = |x.val| := by
  unfold Integer.magnitude at h
  split at h
  · rename_i hx
    cases h
    rw [abs_of_nonneg hx]
  · rename_i hx
    split at h
    · rename_i a ha
      cases h
      rw [Saturation.ofInt?_eq_some_iff.mp ha, abs_of_neg (by omega)]
      exact zero_sub _
    · cases h

theorem val_largerMagnitude {lower upper s : Integer t}
    (h : Integer.largerMagnitude lower upper = .ok s) : s.val = max |lower.val| |upper.val| := by
  obtain ⟨a, ha, h⟩ := bind_eq_ok_iff.mp h
  obtain ⟨b, hb, h⟩ := bind_eq_ok_iff.mp h
  have hl := val_magnitude ha
  have hu := val_magnitude hb
  cases h
  split <;> omega

theorem val_range {lower upper r : Integer t} (h : Integer.range lower upper = .ok r) :
    r.val = upper.val - lower.val := by
  unfold Integer.range at h
  split at h
  · rename_i a ha
    cases h
    exact Saturation.ofInt?_eq_some_iff.mp ha
  · cases h

/-- A scaled distance is the exact product, or there is none. -/
theorem scaledBy_eq_ok_iff {s D : Integer t} {d : Integer .u32} :
    s.scaledBy d = .ok D ↔ d.val ≤ t.max ∧ D.val = d.val * s.val := by
  have hd : 0 ≤ d.val := d.min_le
  have hmin := t.min_le_zero
  unfold Integer.scaledBy
  rw [bind_eq_ok_iff]
  constructor
  · rintro ⟨n, hn, h⟩
    have hcast : n.val = d.val := by
      unfold NumType.cast at hn
      split at hn
      · rename_i y hy
        cases hn
        exact Saturation.ofInt?_eq_some_iff.mp hy
      · cases hn
    split at h
    · rename_i a ha
      cases h
      rw [← hcast]
      exact ⟨n.le_max, Saturation.ofInt?_eq_some_iff.mp ha⟩
    · cases h
  · rintro ⟨hle, hD⟩
    refine ⟨⟨d.val, by omega, hle⟩, ?_, ?_⟩
    · unfold NumType.cast
      have hc : NumType.convert? (.int .u32) (.int t) d = some ⟨d.val, by omega, hle⟩ :=
        Saturation.ofInt?_eq_some_iff.mpr rfl
      rw [hc]
    · have hm : Integer.checkedMul? ⟨d.val, by omega, hle⟩ s = some D :=
        Saturation.ofInt?_eq_some_iff.mpr hD
      rw [hm]
      rfl

theorem val_substitutions (d : Integer .u32) : (Integer.substitutions d).val = d.val / 2 := by
  have hmin : 0 ≤ d.val := d.min_le
  have hmax := d.le_max
  unfold Integer.substitutions
  rw [Saturation.val_clamp]
  change max 0 (min (d.val / 2) IntType.u32.max) = _
  omega

theorem map_eq_stabilityMap {m' : Metric} (T : Transformation .symmetric m')
    (d : Integer .u32) : T.map d = T.stabilityMap d := by
  have hd : 0 ≤ d.val := d.min_le
  have hc : NumType.checkDistance (.int .u32) d = .ok () := by
    have hlt : NumType.lt (.int .u32) d (NumType.zero (.int .u32)) = false := by
      change decide (d.val < 0) = false
      exact decide_eq_false (by omega)
    unfold NumType.checkDistance
    rw [hlt]
    rfl
  unfold Transformation.map
  rw [show Metric.symmetric.distanceType.checkDistance d = .ok () from hc]
  rfl

theorem le_of_ofBounds_eq_ok {lower upper : Integer t} {i : Interval (.int t)}
    (h : Interval.ofBounds (.int t) lower upper = .ok i) : lower.val ≤ upper.val := by
  obtain ⟨rfl, rfl⟩ := Interval.of_ofBounds_eq_ok h
  exact of_decide_eq_true i.le

/-! ### Clipped sums of neighbouring datasets -/

section Rests

variable {u v c r s : List (Integer t)}

theorem negatives_sub_negatives (hu : u.Perm (c ++ r)) (hv : v.Perm (c ++ s)) :
    negatives u - negatives v = negatives r - negatives s := by
  rw [negatives_eq_sum_min, negatives_eq_sum_min, negatives_eq_sum_min, negatives_eq_sum_min]
  exact sum_sub_sum_of_common_part hu hv _

theorem nonnegatives_sub_nonnegatives (hu : u.Perm (c ++ r)) (hv : v.Perm (c ++ s)) :
    nonnegatives u - nonnegatives v = nonnegatives r - nonnegatives s := by
  rw [nonnegatives_eq_sum_max, nonnegatives_eq_sum_max, nonnegatives_eq_sum_max,
    nonnegatives_eq_sum_max]
  exact sum_sub_sum_of_common_part hu hv _

/-- Each record of either rest moves the clipped total by at most its own magnitude. -/
theorem abs_clippedTotal_sub_le (hu : u.Perm (c ++ r)) (hv : v.Perm (c ++ s)) {b : Int}
    (hr : ∀ x ∈ r, |x.val| ≤ b) (hs : ∀ x ∈ s, |x.val| ≤ b) :
    |clippedTotal u - clippedTotal v| ≤ (r.length + s.length : Nat) * b := by
  have hneg := negatives_sub_negatives hu hv
  have hpos := nonnegatives_sub_nonnegatives hu hv
  have hnr := negatives_nonpos r
  have hns := negatives_nonpos s
  have hpr := nonnegatives_nonneg r
  have hps := nonnegatives_nonneg s
  have hmr : nonnegatives r - negatives r ≤ r.length * b := by
    rw [nonnegatives_sub_negatives]
    exact sum_le_length_mul r _ b hr
  have hms : nonnegatives s - negatives s ≤ s.length * b := by
    rw [nonnegatives_sub_negatives]
    exact sum_le_length_mul s _ b hs
  rw [Nat.cast_add, add_mul, abs_le]
  unfold clippedTotal
  constructor <;> omega

theorem abs_sum_sub_sum_le_of_between (hl : r.length = s.length) {lower upper : Integer t}
    (hr : Between lower upper r) (hs : Between lower upper s) {g : Integer t → Int}
    (hg : ∀ x y, |g x - g y| ≤ |x.val - y.val|) :
    |(r.map g).sum - (s.map g).sum| ≤ r.length * (upper.val - lower.val) := by
  apply abs_sum_sub_sum_le r s hl
  intro x hx y hy
  have h := hr x hx
  have h' := hs y hy
  refine (hg x y).trans ?_
  rw [abs_le]
  omega

/-- Each substitution of one record for another moves the clipped total by at most the width of
    the bounds, also when it crosses zero and moves both parts. -/
theorem abs_clippedTotal_sub_le_of_substitutions (hu : u.Perm (c ++ r)) (hv : v.Perm (c ++ s))
    (hl : r.length = s.length) {lower upper : Integer t} (hr : Between lower upper r)
    (hs : Between lower upper s) :
    |clippedTotal u - clippedTotal v| ≤ r.length * (upper.val - lower.val) := by
  have hneg := negatives_sub_negatives hu hv
  have hpos := nonnegatives_sub_nonnegatives hu hv
  have hn : |negatives r - negatives s| ≤ r.length * (upper.val - lower.val) := by
    rw [negatives_eq_sum_min, negatives_eq_sum_min]
    exact abs_sum_sub_sum_le_of_between hl hr hs fun x y => abs_inf_sub_inf_le_abs _ _ _
  have hp : |nonnegatives r - nonnegatives s| ≤ r.length * (upper.val - lower.val) := by
    rw [nonnegatives_eq_sum_max, nonnegatives_eq_sum_max]
    exact abs_sum_sub_sum_le_of_between hl hr hs fun x y => abs_sup_sub_sup_le_abs _ _ _
  have ht : |(nonnegatives r + negatives r) - (nonnegatives s + negatives s)| ≤
      r.length * (upper.val - lower.val) := by
    rw [nonnegatives_add_negatives, nonnegatives_add_negatives]
    exact abs_sum_sub_sum_le_of_between hl hr hs fun x y => le_refl _
  rw [abs_le] at hn hp ht ⊢
  unfold clippedTotal
  constructor <;> omega

end Rests

/-! ### The transformations -/

section Transformations

variable {method : SumMethod} {caps : Capabilities} {lower upper : Integer t} {size : Nat}
  {T : Transformation .symmetric (.absolute (.int t))}

theorem of_boundedSum_eq_ok (h : Transformation.boundedSum method caps t lower upper = .ok T) :
    method.checkSigns lower upper = .ok () ∧ ∃ (i : Interval (.int t)) (s : Integer t),
      Interval.ofBounds (.int t) lower upper = .ok i ∧
      Integer.largerMagnitude lower upper = .ok s ∧
      T = { inputDomain := .vector (.bounded (.int t) i)
            outputDomain := .all (.num (.int t))
            function := fun v => .ok (.int (method.sum (v.integers t)))
            stabilityMap := s.scaledBy } := by
  obtain ⟨_, _, h⟩ := bind_eq_ok_iff.mp h
  obtain ⟨_, hsign, h⟩ := bind_eq_ok_iff.mp h
  obtain ⟨i, hi, h⟩ := bind_eq_ok_iff.mp h
  obtain ⟨s, hs, h⟩ := bind_eq_ok_iff.mp h
  cases h
  exact ⟨hsign, i, s, hi, hs, rfl⟩

theorem of_sizedBoundedSum_eq_ok
    (h : Transformation.sizedBoundedSum method caps size t lower upper = .ok T) :
    method.checkSigns lower upper = .ok () ∧ ∃ (i : Interval (.int t)) (r : Integer t),
      Interval.ofBounds (.int t) lower upper = .ok i ∧
      Integer.range lower upper = .ok r ∧
      T = { inputDomain := .sized (.vector (.bounded (.int t) i)) size
            outputDomain := .all (.num (.int t))
            function := fun v => .ok (.int (method.sum (v.integers t)))
            stabilityMap := fun d => r.scaledBy (Integer.substitutions d) } := by
  obtain ⟨_, _, h⟩ := bind_eq_ok_iff.mp h
  obtain ⟨_, hsign, h⟩ := bind_eq_ok_iff.mp h
  obtain ⟨i, hi, h⟩ := bind_eq_ok_iff.mp h
  obtain ⟨r, hr, h⟩ := bind_eq_ok_iff.mp h
  cases h
  exact ⟨hsign, i, r, hi, hr, rfl⟩

theorem contains_of_between {i : Interval (.int t)}
    (hi : Interval.ofBounds (.int t) lower upper = .ok i) {u : List (Integer t)}
    (hu : Between lower upper u) :
    (Domain.vector (.bounded (.int t) i)).contains (.ofIntegers u) = true := by
  obtain ⟨rfl, rfl⟩ := Interval.of_ofBounds_eq_ok hi
  exact (Domain.bounded_contains_ofIntegers_iff i u).mpr hu

theorem invokeBetween_sum {domain : Domain} {u : List (Integer t)}
    (hu : domain.contains (.ofIntegers u) = true) :
    invokeBetween domain (.all (.num (.int t)))
      (fun v => .ok (.int (method.sum (v.integers t)))) (.ofIntegers u) =
        .ok (.int (method.sum u)) := by
  apply invokeBetween_eq_ok hu _ (Domain.contains_int _)
  rw [Value.integers_ofIntegers]

/-- The bound of the larger magnitude, repeated as often as the distance allows, is as far from no
    data at all as the map says. -/
theorem exists_clippedTotal_eq (hle : lower.val ≤ upper.val) (n : Nat)
    (h : n * max |lower.val| |upper.val| ≤ t.max) : ∃ u, Between lower upper u ∧ u.length = n ∧
      |clippedTotal u| = n * max |lower.val| |upper.val| := by
  rcases le_total |lower.val| |upper.val| with hm | hm
  · rw [max_eq_right hm] at h ⊢
    refine ⟨List.replicate n upper, ?_, List.length_replicate, abs_clippedTotal_replicate n upper h⟩
    intro x hx
    rw [(List.mem_replicate.mp hx).2]
    exact ⟨hle, le_refl _⟩
  · rw [max_eq_left hm] at h ⊢
    refine ⟨List.replicate n lower, ?_, List.length_replicate, abs_clippedTotal_replicate n lower h⟩
    intro x hx
    rw [(List.mem_replicate.mp hx).2]
    exact ⟨le_refl _, hle⟩

/-- The sum of any number of records between two bounds: what it returns, that `D` bounds the
    distance of its values on any two datasets at most `d` apart, that no smaller bound does, and
    that every accumulator is the exact sum so far, clipped, and `D` the exact product. -/
theorem boundedSum_stable (hT : Transformation.boundedSum method caps t lower upper = .ok T)
    {d : Integer .u32} {D : Integer t} (hD : T.map d = .ok D) :
    (∀ u, Between lower upper u → T.invoke (.ofIntegers u) = .ok (.int (method.sum u))) ∧
    (∀ u v, Between lower upper u → Between lower upper v → symmetricDistance u v ≤ d.val →
      |(method.sum u).val - (method.sum v).val| ≤ D.val) ∧
    (∃ u v, Between lower upper u ∧ Between lower upper v ∧ symmetricDistance u v ≤ d.val ∧
      |(method.sum u).val - (method.sum v).val| = D.val) ∧
    D.val = d.val * max |lower.val| |upper.val| ∧
    ∀ u, Between lower upper u → ∀ n,
      (Integer.splitParts (u.take n)).1.val = max t.min (negatives (u.take n)) ∧
      (Integer.splitParts (u.take n)).2.val = min (nonnegatives (u.take n)) t.max ∧
      (method.sum (u.take n)).val =
        max t.min (negatives (u.take n)) + min (nonnegatives (u.take n)) t.max := by
  obtain ⟨hsign, i, s, hi, hs, rfl⟩ := of_boundedSum_eq_ok hT
  obtain ⟨d', hd⟩ := Int.eq_ofNat_of_zero_le (show 0 ≤ d.val from d.min_le)
  have hsv := val_largerMagnitude hs
  have hDv : D.val = d.val * max |lower.val| |upper.val| := by
    rw [map_eq_stabilityMap] at hD
    rw [(scaledBy_eq_ok_iff.mp hD).2, hsv]
  refine ⟨fun u hu => invokeBetween_sum (contains_of_between hi hu), ?_, ?_, hDv, ?_⟩
  · intro u v hu hv hd
    obtain ⟨c, r, s, hur, hvs, hl⟩ := exists_common_part u v
    rw [val_sum hsign hu, val_sum hsign hv, hDv]
    refine (abs_clippedTotal_sub_le hur hvs (hu.of_perm hur).abs_val_le
      (hv.of_perm hvs).abs_val_le).trans ?_
    rw [hl]
    exact mul_le_mul_of_nonneg_right hd ((abs_nonneg _).trans (le_max_left _ _))
  · -- The pair is `d` copies of one bound and no data at all; nothing clips, as `D` fits the type.
    have hle := le_of_ofBounds_eq_ok hi
    have hfit := D.le_max
    rw [hDv, hd] at hfit
    obtain ⟨u, hu, hlen, hsum⟩ := exists_clippedTotal_eq hle d' hfit
    have hnil : Between lower upper [] := fun x hx => absurd hx List.not_mem_nil
    refine ⟨u, [], hu, hnil, ?_, ?_⟩
    · rw [symmetricDistance_nil, hlen, hd]
    · rw [val_sum hsign hu, val_sum hsign hnil, clippedTotal_nil, sub_zero, hsum, hDv, hd]
  · intro u hu n
    exact ⟨(val_splitParts _).1, (val_splitParts _).2, val_sum hsign (hu.take n)⟩

/-- Losing and gaining a record cancel in the split sum of the smallest type, whose parts both clip
    here; the map allows the larger magnitude for either. -/
theorem boundedSum_stable_i8 : ∃ T : Transformation .symmetric (.absolute (.int .i8)),
    Transformation.boundedSum .split .all .i8 (.clamp _ (-100)) (.clamp _ 60) = .ok T ∧
    T.map (.clamp _ 1) = .ok (.clamp _ 100) ∧
    |(SumMethod.split.sum (t := .i8)
        [.clamp _ (-100), .clamp _ 60, .clamp _ 60, .clamp _ 60, .clamp _ (-100)]).val -
      (SumMethod.split.sum (t := .i8)
        [.clamp _ 60, .clamp _ 60, .clamp _ (-100), .clamp _ 60]).val| ≤ 100 := by
  have hT : Transformation.boundedSum .split .all .i8 (.clamp _ (-100)) (.clamp _ 60) = .ok _ := rfl
  have h := boundedSum_stable hT (d := Integer.clamp .u32 1) (D := Integer.clamp .i8 100) rfl
  exact ⟨_, hT, rfl, h.2.1 _ _ (by decide) (by decide) (by decide)⟩

/-- The sum of exactly `size` records between two bounds: what it returns, that `D` is half the
    distance, rounded down, times the width of the bounds, and that `D` bounds the distance of its
    values on any two datasets of that size at most `d` apart. -/
theorem sizedBoundedSum_stable
    (hT : Transformation.sizedBoundedSum method caps size t lower upper = .ok T)
    {d : Integer .u32} {D : Integer t} (hD : T.map d = .ok D) :
    (∀ u, u.length = size → Between lower upper u →
      T.invoke (.ofIntegers u) = .ok (.int (method.sum u))) ∧
    D.val = d.val / 2 * (upper.val - lower.val) ∧
    ∀ u v, u.length = size → v.length = size → Between lower upper u → Between lower upper v →
      symmetricDistance u v ≤ d.val → |(method.sum u).val - (method.sum v).val| ≤ D.val := by
  obtain ⟨hsign, i, r, hi, hr, rfl⟩ := of_sizedBoundedSum_eq_ok hT
  have hDv : D.val = d.val / 2 * (upper.val - lower.val) := by
    rw [map_eq_stabilityMap] at hD
    rw [(scaledBy_eq_ok_iff.mp hD).2, val_substitutions, val_range hr]
  refine ⟨?_, hDv, ?_⟩
  · intro u hlen hu
    apply invokeBetween_sum
    unfold Domain.contains
    rw [Value.size?_ofIntegers, hlen, contains_of_between hi hu]
    simp
  · intro u v hulen hvlen hu hv hd
    obtain ⟨c, r, s, hur, hvs, hl⟩ := exists_common_part u v
    -- Datasets of one size leave rests of one size, so an odd distance costs nothing extra.
    have hrs : r.length = s.length := by
      have h := hur.length_eq
      have h' := hvs.length_eq
      rw [List.length_append] at h h'
      omega
    have hle := le_of_ofBounds_eq_ok hi
    rw [val_sum hsign hu, val_sum hsign hv, hDv]
    refine (abs_clippedTotal_sub_le_of_substitutions hur hvs hrs (hu.of_perm hur)
      (hv.of_perm hvs)).trans ?_
    exact mul_le_mul_of_nonneg_right (by omega) (by omega)

/-- A substitution that crosses zero while both parts clip, at an odd distance. -/
theorem sizedBoundedSum_stable_i8 : ∃ T : Transformation .symmetric (.absolute (.int .i8)),
    Transformation.sizedBoundedSum .split .all 4 .i8 (.clamp _ (-60)) (.clamp _ 66) = .ok T ∧
    T.map (.clamp _ 3) = .ok (.clamp _ 126) ∧
    |(SumMethod.split.sum (t := .i8)
        [.clamp _ 66, .clamp _ (-60), .clamp _ 66, .clamp _ (-60)]).val -
      (SumMethod.split.sum (t := .i8)
        [.clamp _ (-60), .clamp _ 66, .clamp _ (-60), .clamp _ (-60)]).val| ≤ 126 := by
  have hT : Transformation.sizedBoundedSum .split .all 4 .i8 (.clamp _ (-60)) (.clamp _ 66) =
      .ok _ := rfl
  have h := sizedBoundedSum_stable hT (d := Integer.clamp .u32 3) (D := Integer.clamp .i8 126) rfl
  exact ⟨_, hT, rfl, h.2.2 _ _ rfl rfl (by decide) (by decide) (by decide)⟩

end Transformations

end DifferentialPrivacy.SumStability
