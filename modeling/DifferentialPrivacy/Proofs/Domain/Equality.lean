import DifferentialPrivacy.Domain

set_option autoImplicit false

/-!
# Equal domains have the same members

The ends of intervals are compared as numbers, so a domain may equal one that is written differently:
the two zeros of a format are one end. Erased domains are compared by their text, and the text of an
interval does not tell its type, so domains that hold one are left out.
-/
namespace DifferentialPrivacy

theorem Binary.ordinal?_eq_of_eq {f : Format} {x y : Binary f} (h : x.eq y = true) :
    x.ordinal? = y.ordinal? := by
  unfold Binary.eq at h
  split at h
  · rename_i a b ha hb
    rw [ha, hb, of_decide_eq_true h]
  · cases h

theorem NumType.le_congr {t : NumType} {x y : t.Carrier} (h : t.eq x y = true) (z : t.Carrier) :
    t.le x z = t.le y z ∧ t.le z x = t.le z y := by
  cases t with
  | int t =>
    have hval : x.val = y.val := of_decide_eq_true h
    change decide (x.val ≤ z.val) = decide (y.val ≤ z.val) ∧
      decide (z.val ≤ x.val) = decide (z.val ≤ y.val)
    rw [hval]
    exact ⟨rfl, rfl⟩
  | float f =>
    change Binary.le x z = Binary.le y z ∧ Binary.le z x = Binary.le z y
    unfold Binary.le
    rw [Binary.ordinal?_eq_of_eq h]
    exact ⟨rfl, rfl⟩

theorem Interval.contains_eq_of_eq {t : NumType} {i j : Interval t} (h : i.eq j = true)
    (x : t.Carrier) : i.contains x = j.contains x := by
  obtain ⟨hlower, hupper⟩ := Bool.and_eq_true_iff.mp h
  unfold contains
  rw [(NumType.le_congr hlower x).1, (NumType.le_congr hupper x).2]

theorem Interval.containsValue_eq_of_eq {t : NumType} {i j : Interval t} (h : i.eq j = true)
    (v : Value) : i.containsValue v = j.containsValue v := by
  cases v with
  | num s x =>
    unfold containsValue
    dsimp only
    by_cases hs : s = t
    · rw [dif_pos hs, dif_pos hs, contains_eq_of_eq h]
    · rw [dif_neg hs, dif_neg hs]
  | _ => rfl

namespace Domain

/-! ### What a domain is equal to -/

theorem of_all_eq {a : Atom} {e : Domain} (h : (all a).eq e = true) : e = all a := by
  cases e with
  | all b => rw [of_decide_eq_true h]
  | _ => cases h

theorem of_bounded_eq {t : NumType} {i : Interval t} {e : Domain}
    (h : (bounded t i).eq e = true) : ∃ j, e = bounded t j ∧ i.eq j = true := by
  cases e with
  | bounded s j =>
    unfold eq at h
    split at h
    · rename_i hs
      subst hs
      exact ⟨j, rfl, h⟩
    · cases h
  | _ => cases h

theorem of_vector_eq {d e : Domain} (h : (vector d).eq e = true) :
    ∃ e', e = vector e' ∧ d.eq e' = true := by
  cases e with
  | vector e' =>
    unfold eq at h
    exact ⟨e', rfl, h⟩
  | _ => cases h

theorem of_sized_eq {d e : Domain} {n : Nat} (h : (sized d n).eq e = true) :
    ∃ e', e = sized e' n ∧ d.eq e' = true := by
  cases e with
  | sized e' m =>
    unfold eq at h
    obtain ⟨hd, hn⟩ := Bool.and_eq_true_iff.mp h
    rw [of_decide_eq_true hn]
    exact ⟨e', rfl, hd⟩
  | _ => cases h

theorem of_map_eq {k d e : Domain} (h : (map k d).eq e = true) :
    ∃ k' d', e = map k' d' ∧ k.eq k' = true ∧ d.eq d' = true := by
  cases e with
  | map k' d' =>
    unfold eq at h
    obtain ⟨hk, hd⟩ := Bool.and_eq_true_iff.mp h
    exact ⟨k', d', rfl, hk, hd⟩
  | _ => cases h

theorem of_product_eq {part : DomainType} {ds : List Domain} {e : Domain}
    (h : (product part ds).eq e = true) : ∃ es, e = product part es ∧ eqParts ds es = true := by
  cases e with
  | product part' es =>
    unfold eq at h
    obtain ⟨hpart, hds⟩ := Bool.and_eq_true_iff.mp h
    rw [of_decide_eq_true hpart]
    exact ⟨es, rfl, hds⟩
  | _ => cases h

theorem of_eqParts_cons {d : Domain} {ds es : List Domain} (h : eqParts (d :: ds) es = true) :
    ∃ e es', es = e :: es' ∧ d.eq e = true ∧ eqParts ds es' = true := by
  cases es with
  | nil => cases h
  | cons e es' =>
    unfold eqParts at h
    obtain ⟨hd, hds⟩ := Bool.and_eq_true_iff.mp h
    exact ⟨e, es', rfl, hd, hds⟩

/-! ### Members -/

mutual

/-- Whether no part of a domain is erased. -/
def unerased : Domain → Bool
  | all _ | bounded _ _ => true
  | vector d | sized d _ => d.unerased
  | map k d => k.unerased && d.unerased
  | product _ ds => unerasedParts ds
  | erased _ => false

def unerasedParts : List Domain → Bool
  | [] => true
  | d :: ds => d.unerased && unerasedParts ds

end

mutual

theorem contains_eq_of_eq : (d e : Domain) → d.unerased = true → d.eq e = true →
    ∀ v, d.contains v = e.contains v
  | all a, e, _, h, v => by rw [of_all_eq h]
  | bounded t i, e, _, h, v => by
    obtain ⟨j, rfl, hij⟩ := of_bounded_eq h
    unfold contains
    exact Interval.containsValue_eq_of_eq hij v
  | vector d, e, hd, h, v => by
    obtain ⟨e', rfl, hde⟩ := of_vector_eq h
    unfold unerased at hd
    have hcongr : d.contains = e'.contains := funext (contains_eq_of_eq d e' hd hde)
    cases v with
    | list xs =>
      unfold contains
      rw [hcongr]
    | _ => simp only [contains]
  | sized d n, e, hd, h, v => by
    obtain ⟨e', rfl, hde⟩ := of_sized_eq h
    unfold unerased at hd
    unfold contains
    rw [contains_eq_of_eq d e' hd hde]
  | map k d, e, hd, h, v => by
    obtain ⟨k', d', rfl, hk, hde⟩ := of_map_eq h
    unfold unerased at hd
    obtain ⟨hku, hdu⟩ := Bool.and_eq_true_iff.mp hd
    have hkeys : k.contains = k'.contains := funext (contains_eq_of_eq k k' hku hk)
    have hvalues : d.contains = d'.contains := funext (contains_eq_of_eq d d' hdu hde)
    cases v with
    | map es =>
      unfold contains
      rw [hkeys, hvalues]
    | _ => simp only [contains]
  | product _ ds, e, hd, h, v => by
    obtain ⟨es, rfl, hds⟩ := of_product_eq h
    unfold unerased at hd
    cases v with
    | list xs =>
      unfold contains
      exact containsEach_eq_of_eqParts ds es hd hds xs
    | _ => simp only [contains]
  | erased d, e, hd, h, v => by
    unfold unerased at hd
    cases hd

theorem containsEach_eq_of_eqParts : (ds es : List Domain) → unerasedParts ds = true →
    eqParts ds es = true → ∀ xs, containsEach ds xs = containsEach es xs
  | [], [], _, _, xs => rfl
  | [], e :: es, _, h, xs => by
    unfold eqParts at h
    cases h
  | d :: ds, es, hd, h, xs => by
    obtain ⟨e, es', rfl, hde, hds⟩ := of_eqParts_cons h
    unfold unerasedParts at hd
    obtain ⟨hdu, hdsu⟩ := Bool.and_eq_true_iff.mp hd
    cases xs with
    | nil => simp only [containsEach]
    | cons x xs =>
      unfold containsEach
      rw [contains_eq_of_eq d e hdu hde, containsEach_eq_of_eqParts ds es' hdsu hds]

end

end Domain
end DifferentialPrivacy
