import DifferentialPrivacy.Proofs.Domain.DomainText

set_option autoImplicit false

/-!
# When erased domains are equal

Erased domains are compared by the texts of what they wrap. For domains of one type the text tells
everything, down to the sign of a zero, which equality of domains does not see. It does not tell the
types of intervals and of products without parts. Where domains of two types have one text, their members
are of one type and the same, or of two types and then no value is a member of both.
-/
namespace DifferentialPrivacy

/-! ### Numbers that are equal and not zero -/

theorem Binary.eq_of_eq {f : Format} {x y : Binary f} (hx : x.isZero = false)
    (h : x.eq y = true) : x = y := by
  have hordinal := ordinal?_eq_of_eq h
  cases x with
  | nan => cases h
  | signed n p hp =>
    cases y with
    | nan => cases hordinal
    | signed m q hq =>
      have hp0 : p ≠ 0 := of_decide_eq_false hx
      have hsame : n = m ∧ p = q := by
        have hplace := Option.some.inj hordinal
        cases n <;> cases m
        · exact ⟨rfl, Int.ofNat.inj hplace⟩
        · have hopposite : (p : Int) = -(q : Int) := hplace
          omega
        · have hopposite : -(p : Int) = q := hplace
          omega
        · exact ⟨rfl, Int.ofNat.inj (Int.neg_inj.mp hplace)⟩
      obtain ⟨rfl, rfl⟩ := hsame
      rfl

namespace NumType

/-- Whether a number is one of the two zeros of a format. -/
def isSignedZero : (t : NumType) → t.Carrier → Bool
  | int _, _ => false
  | float _, x => x.isZero

theorem eq_of_eq {t : NumType} {x y : t.Carrier} (hx : t.isSignedZero x = false)
    (h : t.eq x y = true) : x = y := by
  cases t with
  | int t => exact Integer.ext (of_decide_eq_true h)
  | float f => exact Binary.eq_of_eq hx h

end NumType

/-- Whether neither end is a zero of a format. -/
def Interval.zeroFree {t : NumType} (i : Interval t) : Bool :=
  !t.isSignedZero i.lower && !t.isSignedZero i.upper

theorem Interval.eq_of_eq {t : NumType} {i j : Interval t} (hi : i.zeroFree = true)
    (h : i.eq j = true) : i = j := by
  unfold zeroFree at hi
  rw [Bool.and_eq_true, Bool.not_eq_true', Bool.not_eq_true'] at hi
  obtain ⟨hlower, hupper⟩ := Bool.and_eq_true_iff.mp h
  cases i
  cases j
  obtain rfl := NumType.eq_of_eq hi.1 hlower
  obtain rfl := NumType.eq_of_eq hi.2 hupper
  rfl

namespace Domain

mutual

/-- Whether no interval in a domain ends at a zero of a format. -/
def zeroFree : Domain → Bool
  | all _ => true
  | bounded _ i => i.zeroFree
  | vector d | sized d _ | erased d => d.zeroFree
  | map k d => k.zeroFree && d.zeroFree
  | product _ ds => zeroFreeParts ds

def zeroFreeParts : List Domain → Bool
  | [] => true
  | d :: ds => d.zeroFree && zeroFreeParts ds

end

mutual

theorem eq_of_eq : (d e : Domain) → d.unerased = true → d.zeroFree = true → d.eq e = true → d = e
  | all a, e, _, _, h => (of_all_eq h).symm
  | bounded t i, e, _, hz, h => by
    obtain ⟨j, rfl, hij⟩ := of_bounded_eq h
    unfold zeroFree at hz
    rw [Interval.eq_of_eq hz hij]
  | vector d, e, hd, hz, h => by
    obtain ⟨e', rfl, hde⟩ := of_vector_eq h
    unfold unerased at hd
    unfold zeroFree at hz
    rw [eq_of_eq d e' hd hz hde]
  | sized d n, e, hd, hz, h => by
    obtain ⟨e', rfl, hde⟩ := of_sized_eq h
    unfold unerased at hd
    unfold zeroFree at hz
    rw [eq_of_eq d e' hd hz hde]
  | map k d, e, hd, hz, h => by
    obtain ⟨k', d', rfl, hk, hde⟩ := of_map_eq h
    unfold unerased at hd
    unfold zeroFree at hz
    obtain ⟨hku, hdu⟩ := Bool.and_eq_true_iff.mp hd
    obtain ⟨hkz, hdz⟩ := Bool.and_eq_true_iff.mp hz
    rw [eq_of_eq k k' hku hkz hk, eq_of_eq d d' hdu hdz hde]
  | product _ ds, e, hd, hz, h => by
    obtain ⟨es, rfl, hds⟩ := of_product_eq h
    unfold unerased at hd
    unfold zeroFree at hz
    rw [eq_of_eqParts ds es hd hz hds]
  | erased d, e, hd, _, _ => by
    unfold unerased at hd
    cases hd

theorem eq_of_eqParts : (ds es : List Domain) → unerasedParts ds = true →
    zeroFreeParts ds = true → eqParts ds es = true → ds = es
  | [], [], _, _, _ => rfl
  | [], e :: es, _, _, h => by
    unfold eqParts at h
    cases h
  | d :: ds, es, hd, hz, h => by
    obtain ⟨e, es', rfl, hde, hds⟩ := of_eqParts_cons h
    unfold unerasedParts at hd
    unfold zeroFreeParts at hz
    obtain ⟨hdu, hdsu⟩ := Bool.and_eq_true_iff.mp hd
    obtain ⟨hdz, hdsz⟩ := Bool.and_eq_true_iff.mp hz
    rw [eq_of_eq d e hdu hdz hde, eq_of_eqParts ds es' hdsu hdsz hds]

end

/-! ### Types -/

theorem type_eq_of_eq : (d e : Domain) → d.eq e = true → d.type = e.type
  | all a, e, h => by rw [of_all_eq h]
  | bounded t i, e, h => by
    obtain ⟨j, rfl, -⟩ := of_bounded_eq h
    rfl
  | vector d, e, h => by
    obtain ⟨e', rfl, hde⟩ := of_vector_eq h
    unfold type
    rw [type_eq_of_eq d e' hde]
  | sized d n, e, h => by
    obtain ⟨e', rfl, hde⟩ := of_sized_eq h
    unfold type
    rw [type_eq_of_eq d e' hde]
  | map k d, e, h => by
    obtain ⟨k', d', rfl, hk, hde⟩ := of_map_eq h
    unfold type
    rw [type_eq_of_eq k k' hk, type_eq_of_eq d d' hde]
  | product part ds, e, h => by
    obtain ⟨es, rfl, -⟩ := of_product_eq h
    rfl
  | erased d, e, h => by
    obtain ⟨e', rfl, -⟩ := of_erased_eq h
    rfl

mutual

/-- Whether the parts of every product are of the type given beside them. -/
def wellTyped : Domain → Bool
  | all _ | bounded _ _ => true
  | vector d | sized d _ | erased d => d.wellTyped
  | map k d => k.wellTyped && d.wellTyped
  | product part ds => wellTypedParts part ds

def wellTypedParts (part : DomainType) : List Domain → Bool
  | [] => true
  | d :: ds => (d.type = part && d.wellTyped) && wellTypedParts part ds

end

theorem wellTypedParts_cons_iff {part : DomainType} {d : Domain} {ds : List Domain} :
    wellTypedParts part (d :: ds) = true ↔
      (d.type = part ∧ d.wellTyped = true) ∧ wellTypedParts part ds = true := by
  simp [wellTypedParts]

mutual

/-- Domains of one type that are written alike are one domain. -/
theorem eq_of_alike : (d e : Domain) → d.unerased = true → d.wellTyped = true →
    e.wellTyped = true → d.alike e = true → d.type = e.type → d = e
  | all a, e, _, _, _, h, _ => by
    cases e with
    | all b => rw [of_decide_eq_true h]
    | _ => cases h
  | bounded s i, e, _, _, _, h, htype => by
    cases e with
    | bounded t j =>
      unfold alike at h
      obtain rfl : s = t := DomainType.bounded.inj htype
      rw [Interval.eq_of_alike h]
    | _ => cases h
  | vector d, e, hd, hw, hw', h, htype => by
    cases e with
    | vector e =>
      unfold unerased at hd
      unfold wellTyped at hw hw'
      unfold alike at h
      rw [eq_of_alike d e hd hw hw' h (DomainType.vector.inj htype)]
    | _ => cases h
  | sized d m, e, hd, hw, hw', h, htype => by
    cases e with
    | sized e n =>
      unfold unerased at hd
      unfold wellTyped at hw hw'
      unfold alike at h
      obtain ⟨halike, hsize⟩ := Bool.and_eq_true_iff.mp h
      rw [eq_of_alike d e hd hw hw' halike (DomainType.sized.inj htype), of_decide_eq_true hsize]
    | _ => cases h
  | map k d, e, hd, hw, hw', h, htype => by
    cases e with
    | map l e =>
      unfold unerased at hd
      unfold wellTyped at hw hw'
      unfold alike at h
      obtain ⟨hku, hdu⟩ := Bool.and_eq_true_iff.mp hd
      obtain ⟨hkw, hdw⟩ := Bool.and_eq_true_iff.mp hw
      obtain ⟨hlw, hew⟩ := Bool.and_eq_true_iff.mp hw'
      obtain ⟨hkeys, hvalues⟩ := Bool.and_eq_true_iff.mp h
      obtain ⟨hkt, hdt⟩ := DomainType.map.inj htype
      rw [eq_of_alike k l hku hkw hlw hkeys hkt, eq_of_alike d e hdu hdw hew hvalues hdt]
    | _ => cases h
  | product part ds, e, hd, hw, hw', h, htype => by
    cases e with
    | product part' es =>
      unfold unerased at hd
      unfold wellTyped at hw hw'
      unfold alike at h
      obtain rfl : part = part' := DomainType.product.inj htype
      rw [eq_of_alikeParts ds es hd hw hw' h]
    | _ => cases h
  | erased d, e, hd, _, _, _, _ => by
    unfold unerased at hd
    cases hd

theorem eq_of_alikeParts {part : DomainType} : (ds es : List Domain) → unerasedParts ds = true →
    wellTypedParts part ds = true → wellTypedParts part es = true → alikeParts ds es = true →
    ds = es
  | [], [], _, _, _, _ => rfl
  | [], e :: es, _, _, _, h => by cases h
  | d :: ds, [], _, _, _, h => by cases h
  | d :: ds, e :: es, hd, hw, hw', h => by
    unfold unerasedParts at hd
    unfold alikeParts at h
    obtain ⟨hdu, hdsu⟩ := Bool.and_eq_true_iff.mp hd
    obtain ⟨⟨hdt, hdw⟩, hdsw⟩ := wellTypedParts_cons_iff.mp hw
    obtain ⟨⟨het, hew⟩, hesw⟩ := wellTypedParts_cons_iff.mp hw'
    obtain ⟨hfirst, hrest⟩ := Bool.and_eq_true_iff.mp h
    rw [eq_of_alike d e hdu hdw hew hfirst (hdt.trans het.symm),
      eq_of_alikeParts ds es hdsu hdsw hesw hrest]

end

/-! ### Members -/

mutual

/-- Domains that are written alike and whose members are of one type have the same members. They may
    be of two types, if they hold products without parts. -/
theorem contains_eq_of_alike : (d e : Domain) → d.unerased = true → d.wellTyped = true →
    e.wellTyped = true → d.alike e = true → d.valueType = e.valueType →
    ∀ v, d.contains v = e.contains v
  | all a, e, _, _, _, h, _, v => by
    cases e with
    | all b => rw [of_decide_eq_true h]
    | _ => cases h
  | bounded s i, e, _, _, _, h, htype, v => by
    cases e with
    | bounded t j =>
      unfold alike at h
      obtain rfl : s = t := Atom.num.inj (ValueType.atom.inj htype)
      rw [Interval.eq_of_alike h]
    | _ => cases h
  | vector d, e, hd, hw, hw', h, htype, v => by
    cases e with
    | vector e =>
      unfold unerased at hd
      unfold wellTyped at hw hw'
      unfold alike at h
      have hcongr : d.contains = e.contains :=
        funext (contains_eq_of_alike d e hd hw hw' h (ValueType.list.inj htype))
      cases v with
      | list xs =>
        unfold contains
        rw [hcongr]
      | _ => simp only [contains]
    | _ => cases h
  | sized d m, e, hd, hw, hw', h, htype, v => by
    cases e with
    | sized e n =>
      unfold unerased at hd
      unfold wellTyped at hw hw'
      unfold alike at h
      obtain ⟨halike, hsize⟩ := Bool.and_eq_true_iff.mp h
      unfold contains
      rw [contains_eq_of_alike d e hd hw hw' halike htype, of_decide_eq_true hsize]
    | _ => cases h
  | map k d, e, hd, hw, hw', h, htype, v => by
    cases e with
    | map l e =>
      unfold unerased at hd
      unfold wellTyped at hw hw'
      unfold alike at h
      obtain ⟨hku, hdu⟩ := Bool.and_eq_true_iff.mp hd
      obtain ⟨hkw, hdw⟩ := Bool.and_eq_true_iff.mp hw
      obtain ⟨hlw, hew⟩ := Bool.and_eq_true_iff.mp hw'
      obtain ⟨halike, halike'⟩ := Bool.and_eq_true_iff.mp h
      obtain ⟨hkt, hdt⟩ := ValueType.map.inj htype
      have hkeys : k.contains = l.contains :=
        funext (contains_eq_of_alike k l hku hkw hlw halike hkt)
      have hvalues : d.contains = e.contains :=
        funext (contains_eq_of_alike d e hdu hdw hew halike' hdt)
      cases v with
      | map es =>
        unfold contains
        rw [hkeys, hvalues]
      | _ => simp only [contains]
    | _ => cases h
  | product part ds, e, hd, hw, hw', h, htype, v => by
    cases e with
    | product part' es =>
      unfold unerased at hd
      unfold wellTyped at hw hw'
      unfold alike at h
      cases v with
      | list xs =>
        unfold contains
        exact containsEach_eq_of_alikeParts ds es hd hw hw' h (ValueType.list.inj htype) xs
      | _ => simp only [contains]
    | _ => cases h
  | erased d, e, hd, _, _, _, _, v => by
    unfold unerased at hd
    cases hd

theorem containsEach_eq_of_alikeParts {part part' : DomainType} : (ds es : List Domain) →
    unerasedParts ds = true → wellTypedParts part ds = true → wellTypedParts part' es = true →
    alikeParts ds es = true → part.carrier = part'.carrier →
    ∀ xs, containsEach ds xs = containsEach es xs
  | [], [], _, _, _, _, _, xs => rfl
  | [], e :: es, _, _, _, h, _, xs => by cases h
  | d :: ds, [], _, _, _, h, _, xs => by cases h
  | d :: ds, e :: es, hd, hw, hw', h, htype, xs => by
    unfold unerasedParts at hd
    unfold alikeParts at h
    obtain ⟨hdu, hdsu⟩ := Bool.and_eq_true_iff.mp hd
    obtain ⟨⟨rfl, hdw⟩, hdsw⟩ := wellTypedParts_cons_iff.mp hw
    obtain ⟨⟨rfl, hew⟩, hesw⟩ := wellTypedParts_cons_iff.mp hw'
    obtain ⟨hfirst, hrest⟩ := Bool.and_eq_true_iff.mp h
    cases xs with
    | nil => simp only [containsEach]
    | cons x xs =>
      unfold containsEach
      rw [contains_eq_of_alike d e hdu hdw hew hfirst htype,
        containsEach_eq_of_alikeParts ds es hdsu hdsw hesw hrest htype]

end

/-! ### Comparing erased domains -/

theorem alike_self (d : Domain) : d.alike d = true := text_eq_iff.mp rfl

theorem exists_of_erased_contains {d : Domain} {v : Value} (h : (erased d).contains v = true) :
    ∃ w, v = .erased d.valueType w := by
  cases v with
  | erased t w =>
    unfold contains at h
    rw [of_decide_eq_true (Bool.and_eq_true_iff.mp h).1]
    exact ⟨w, rfl⟩
  | _ => cases h

section Comparing

variable {d e : Domain}

theorem not_erased_contains_both (htype : d.valueType ≠ e.valueType) (v : Value) :
    ¬((erased d).contains v = true ∧ (erased e).contains v = true) := by
  rintro ⟨hd, he⟩
  obtain ⟨w, rfl⟩ := exists_of_erased_contains hd
  obtain ⟨w', hw⟩ := exists_of_erased_contains he
  exact htype (Value.erased.inj hw).1

theorem erased_contains_eq (htype : d.valueType = e.valueType)
    (h : ∀ v, d.contains v = e.contains v) (v : Value) :
    (erased d).contains v = (erased e).contains v := by
  cases v with
  | erased t w =>
    unfold contains
    rw [htype, h]
  | _ => simp only [contains]

/-- The integers from zero to three. -/
def toThree (t : IntType) : Interval (.int t) where
  lower := .zero
  upper := ⟨3, by cases t <;> decide, by cases t <;> decide⟩
  le := by cases t <;> decide

/-- The numbers from one of the two zeros to one. -/
def fromZero (negative : Bool) : Interval (.float .binary64) where
  lower := .signed negative 0 (Format.zero_le_infinity _)
  upper := .one
  le := by cases negative <;> decide

section WellTyped

variable (hd : d.unerased = true) (hw : d.wellTyped = true) (hw' : e.wellTyped = true)
include hd hw hw'

theorem alike_iff_eq (htype : d.type = e.type) : d.alike e = true ↔ d = e := by
  refine ⟨fun h => eq_of_alike d e hd hw hw' h htype, ?_⟩
  rintro rfl
  exact d.alike_self

/-- Erased domains are equal when what they wrap is written alike. That is equality of what they wrap,
    in type and in parameters, just if domains written alike are of one type and equal domains are the
    same, which they are when no end is a zero of a format. Erased domains that are equal have the same
    members, of one type, or no member in common. -/
theorem erased_eq_iff :
    ((erased d).eq (erased e) = true ↔ d.alike e = true) ∧
      (d.type = e.type → ((erased d).eq (erased e) = true ↔ d = e)) ∧
      (((erased d).eq (erased e) = true ↔ d.type = e.type ∧ d.eq e = true) ↔
        (d.alike e = true → d.type = e.type) ∧ (d.eq e = true → d = e)) ∧
      (d.zeroFree = true → d.type = e.type →
        ((erased d).eq (erased e) = true ↔ d.eq e = true)) ∧
      ((erased d).eq (erased e) = true →
        d.valueType = e.valueType ∧ (∀ v, (erased d).contains v = (erased e).contains v) ∨
        ∀ v, ¬((erased d).contains v = true ∧ (erased e).contains v = true)) := by
  rw [erased_eq]
  refine ⟨Iff.rfl, alike_iff_eq hd hw hw', ?_, ?_, ?_⟩
  · constructor
    · intro hiff
      refine ⟨fun h => (hiff.mp h).1, fun h => ?_⟩
      have htype := type_eq_of_eq d e h
      exact (alike_iff_eq hd hw hw' htype).mp (hiff.mpr ⟨htype, h⟩)
    · rintro ⟨htype, hsame⟩
      constructor
      · intro h
        rw [(alike_iff_eq hd hw hw' (htype h)).mp h]
        exact ⟨rfl, e.eq_self⟩
      · rintro ⟨-, h⟩
        rw [hsame h]
        exact e.alike_self
  · intro hz htype
    rw [alike_iff_eq hd hw hw' htype]
    refine ⟨?_, eq_of_eq d e hd hz⟩
    rintro rfl
    exact d.eq_self
  · intro h
    by_cases htype : d.valueType = e.valueType
    · exact Or.inl ⟨htype,
        erased_contains_eq htype (contains_eq_of_alike d e hd hw hw' h htype)⟩
    · exact Or.inr (not_erased_contains_both htype)

end WellTyped

/-- Pairs of which the first entry comes from an interval that starts at one of the zeros. -/
def pairFromZero (negative : Bool) : Domain :=
  .product (.bounded (.float .binary64)) [.bounded _ (fromZero negative), .bounded _ (fromZero false)]

theorem erased_eq_pairs :
    ((pairFromZero true).unerased = true ∧ (pairFromZero true).wellTyped = true ∧
      (pairFromZero false).wellTyped = true) ∧
      (erased (pairFromZero true)).eq (erased (pairFromZero false)) = false := by
  have hne : pairFromZero true ≠ pairFromZero false := by
    intro h
    have hfirst := (List.cons.inj (product.inj h).2).1
    have hlower := congrArg Interval.lower (eq_of_heq (bounded.inj hfirst).2)
    cases hlower
  have htype : (pairFromZero true).type = (pairFromZero false).type := rfl
  refine ⟨⟨rfl, rfl, rfl⟩, Bool.eq_false_iff.mpr fun h => hne ?_⟩
  exact ((erased_eq_iff rfl rfl rfl).2.1 htype).mp h

/-- The ways in which comparing texts is not comparing domains: intervals of two integer types that
    have different members, products of no parts of two types, and equal intervals from the two zeros. -/
theorem erased_eq_misleads :
    (erased (bounded _ (toThree .i32))).eq (erased (bounded _ (toThree .i64))) = true ∧
      (bounded _ (toThree .i32)).eq (bounded _ (toThree .i64)) = false ∧
      (erased (bounded _ (toThree .i32))).contains
        (.erased (.atom (.num (.int .i32))) (.int (toThree .i32).upper)) = true ∧
      (erased (bounded _ (toThree .i64))).contains
        (.erased (.atom (.num (.int .i32))) (.int (toThree .i32).upper)) = false ∧
      (erased (product (.all .bool) [])).eq (erased (product (.all .string) [])) = true ∧
      (product (.all .bool) []).eq (product (.all .string) []) = false ∧
      (erased (bounded _ (fromZero true))).eq (erased (bounded _ (fromZero false))) = false ∧
      (bounded _ (fromZero true)).eq (bounded _ (fromZero false)) = true := by
  refine ⟨?_, rfl, ?_, ?_, ?_, rfl, ?_, ?_⟩
  · rw [erased_eq]
    exact Interval.alike_iff.mpr ⟨rfl, rfl⟩
  · decide
  · decide
  · rw [erased_eq]
    rfl
  · rw [erased_eq]
    apply Bool.eq_false_iff.mpr
    intro h
    have hlower := NumType.text_injective _ (Interval.alike_iff.mp h).1
    cases hlower
  · decide

end Comparing

end Domain
end DifferentialPrivacy
