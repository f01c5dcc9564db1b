import DifferentialPrivacy.Proofs.Domain.Equality

set_option autoImplicit false

/-!
# Equality of domains is an equivalence

A list of domains can be compared with any one of them: which one is taken, and in which order the
others are, does not matter. No domain is unequal to itself, because an interval has no end that is
not a number.
-/
namespace DifferentialPrivacy

theorem Binary.eq_congr {f : Format} {x y : Binary f} (h : x.eq y = true) (z : Binary f) :
    y.eq z = x.eq z := by
  unfold Binary.eq
  rw [Binary.ordinal?_eq_of_eq h]

theorem NumType.eq_congr {t : NumType} {x y : t.Carrier} (h : t.eq x y = true) (z : t.Carrier) :
    t.eq y z = t.eq x z := by
  cases t with
  | int t =>
    have hval : x.val = y.val := of_decide_eq_true h
    change decide (y.val = z.val) = decide (x.val = z.val)
    rw [hval]
  | float f => exact Binary.eq_congr h z

theorem Binary.eq_self_of_le {f : Format} {x y : Binary f} (h : x.le y = true) :
    x.eq x = true ∧ y.eq y = true := by
  unfold Binary.le at h
  split at h
  · rename_i a b ha hb
    unfold Binary.eq
    rw [ha, hb]
    exact ⟨decide_eq_true rfl, decide_eq_true rfl⟩
  · cases h

theorem Interval.eq_self {t : NumType} (i : Interval t) : i.eq i = true := by
  unfold Interval.eq
  cases t with
  | int t => simp [NumType.eq]
  | float f =>
    obtain ⟨hlower, hupper⟩ := Binary.eq_self_of_le i.le
    exact Bool.and_eq_true_iff.mpr ⟨hlower, hupper⟩

theorem Interval.eq_congr {t : NumType} {i j : Interval t} (h : i.eq j = true) (k : Interval t) :
    j.eq k = i.eq k := by
  obtain ⟨hlower, hupper⟩ := Bool.and_eq_true_iff.mp h
  unfold Interval.eq
  rw [NumType.eq_congr hlower, NumType.eq_congr hupper]

namespace Domain

mutual

theorem eq_self : (d : Domain) → d.eq d = true
  | all a => decide_eq_true rfl
  | bounded t i => by
    unfold eq
    rw [dif_pos rfl]
    exact i.eq_self
  | vector d => by
    unfold eq
    exact eq_self d
  | sized d n => by
    unfold eq
    exact Bool.and_eq_true_iff.mpr ⟨eq_self d, decide_eq_true rfl⟩
  | map k d => by
    unfold eq
    exact Bool.and_eq_true_iff.mpr ⟨eq_self k, eq_self d⟩
  | product part ds => by
    unfold eq
    exact Bool.and_eq_true_iff.mpr ⟨decide_eq_true rfl, eqParts_self ds⟩
  | erased d => decide_eq_true rfl

theorem eqParts_self : (ds : List Domain) → eqParts ds ds = true
  | [] => rfl
  | d :: ds => by
    unfold eqParts
    exact Bool.and_eq_true_iff.mpr ⟨eq_self d, eqParts_self ds⟩

end

theorem of_erased_eq {d e : Domain} (h : (erased d).eq e = true) :
    ∃ e', e = erased e' ∧ d.text = e'.text := by
  cases e with
  | erased e' =>
    unfold eq at h
    exact ⟨e', rfl, of_decide_eq_true h⟩
  | _ => cases h

mutual

/-- Equal domains equal the same domains. -/
theorem eq_congr : (d e : Domain) → d.eq e = true → ∀ g, e.eq g = d.eq g
  | all a, e, h, g => by rw [of_all_eq h]
  | bounded t i, e, h, g => by
    obtain ⟨j, rfl, hij⟩ := of_bounded_eq h
    cases g with
    | bounded s k =>
      unfold eq
      by_cases hs : t = s
      · subst hs
        rw [dif_pos rfl, dif_pos rfl]
        exact Interval.eq_congr hij k
      · rw [dif_neg hs, dif_neg hs]
    | _ => simp only [eq]
  | vector d, e, h, g => by
    obtain ⟨e', rfl, hde⟩ := of_vector_eq h
    cases g with
    | vector g' =>
      unfold eq
      exact eq_congr d e' hde g'
    | _ => simp only [eq]
  | sized d n, e, h, g => by
    obtain ⟨e', rfl, hde⟩ := of_sized_eq h
    cases g with
    | sized g' m =>
      unfold eq
      rw [eq_congr d e' hde g']
    | _ => simp only [eq]
  | map k d, e, h, g => by
    obtain ⟨k', d', rfl, hk, hd⟩ := of_map_eq h
    cases g with
    | map k'' d'' =>
      unfold eq
      rw [eq_congr k k' hk k'', eq_congr d d' hd d'']
    | _ => simp only [eq]
  | product part ds, e, h, g => by
    obtain ⟨es, rfl, hds⟩ := of_product_eq h
    cases g with
    | product _ gs =>
      unfold eq
      rw [eqParts_congr ds es hds gs]
    | _ => simp only [eq]
  | erased d, e, h, g => by
    obtain ⟨e', rfl, htext⟩ := of_erased_eq h
    cases g with
    | erased g' =>
      unfold eq
      rw [htext]
    | _ => simp only [eq]

theorem eqParts_congr : (ds es : List Domain) → eqParts ds es = true →
    ∀ gs, eqParts es gs = eqParts ds gs
  | [], [], _, gs => rfl
  | [], e :: es, h, gs => by
    unfold eqParts at h
    cases h
  | d :: ds, es, h, gs => by
    obtain ⟨e, es', rfl, hde, hds⟩ := of_eqParts_cons h
    cases gs with
    | nil => simp only [eqParts]
    | cons g gs =>
      unfold eqParts
      rw [eq_congr d e hde g, eqParts_congr ds es' hds gs]

end

theorem eq_symm {d e : Domain} (h : d.eq e = true) : e.eq d = true := by
  rw [eq_congr d e h]
  exact eq_self d

theorem eq_trans {d e g : Domain} (h : d.eq e = true) (h' : e.eq g = true) : d.eq g = true := by
  rw [← eq_congr d e h]
  exact h'

end Domain
end DifferentialPrivacy
