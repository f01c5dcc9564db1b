import DifferentialPrivacy.Proofs.Domain.Equivalence
import DifferentialPrivacy.Proofs.Number.DecimalText
import DifferentialPrivacy.Proofs.Text.UniqueReading

set_option autoImplicit false

/-!
# Texts of domains

The text of a domain can be read in one way only: brackets, commas and the names of the kinds tell
where a part ends, since no number and no name of an atom contains them. So two texts are the same
only for domains of one shape whose numbers are written alike. The type of an interval is not written,
and its ends may be written alike for two types.
-/
namespace DifferentialPrivacy

/-! ### Sizes and intervals -/

section Leaves

variable {r r' : List Char}

theorem NumType.notMem_text {t : NumType} {x : t.Carrier} {c : Char} (hc : isNumeral c = false) :
    c ∉ (t.text x).toList := by
  intro h
  rw [NumType.isNumeral_of_mem_text h] at hc
  cases hc

theorem Interval.toList_text {t : NumType} (i : Interval t) :
    i.text.toList = '[' :: ((t.text i.lower).toList ++ ',' :: ' ' ::
      ((t.text i.upper).toList ++ [']'])) := by
  unfold text
  simp only [String.toList_append, List.append_assoc]
  rfl

/-- Whether the ends of two intervals, perhaps of different types, have the same texts. -/
def Interval.alike {s t : NumType} (i : Interval s) (j : Interval t) : Bool :=
  s.text i.lower = t.text j.lower && s.text i.upper = t.text j.upper

theorem Interval.alike_iff {s t : NumType} {i : Interval s} {j : Interval t} :
    i.alike j = true ↔ s.text i.lower = t.text j.lower ∧ s.text i.upper = t.text j.upper := by
  unfold alike
  rw [Bool.and_eq_true, decide_eq_true_iff, decide_eq_true_iff]

theorem Interval.alike_of_text {s t : NumType} {i : Interval s} {j : Interval t}
    (h : i.text.toList ++ r = j.text.toList ++ r') : i.alike j = true ∧ r = r' := by
  rw [toList_text, toList_text] at h
  simp only [List.cons_append, List.append_assoc, List.nil_append, List.cons.injEq, true_and] at h
  obtain ⟨hlower, h⟩ := append_separator_inj (NumType.notMem_text rfl) (NumType.notMem_text rfl) h
  obtain ⟨hupper, hrest⟩ := append_separator_inj (NumType.notMem_text rfl) (NumType.notMem_text rfl)
    (List.cons.inj h).2
  exact ⟨alike_iff.mpr ⟨String.toList_inj.mp hlower, String.toList_inj.mp hupper⟩, hrest⟩

theorem Interval.text_eq_of_alike {s t : NumType} {i : Interval s} {j : Interval t}
    (h : i.alike j = true) : i.text = j.text := by
  obtain ⟨hlower, hupper⟩ := alike_iff.mp h
  unfold text
  rw [hlower, hupper]

/-- Within one type, an end that is written alike is the same number. -/
theorem Interval.eq_of_alike {t : NumType} {i j : Interval t} (h : i.alike j = true) : i = j := by
  obtain ⟨hlower, hupper⟩ := alike_iff.mp h
  cases i
  cases j
  obtain rfl := t.text_injective hlower
  obtain rfl := t.text_injective hupper
  rfl

theorem size_of_text {m n : Nat}
    (h : (toString m).toList ++ ')' :: r = (toString n).toList ++ ')' :: r') : m = n ∧ r = r' := by
  rw [toList_toString, toList_toString] at h
  obtain ⟨hdigits, hrest⟩ := append_separator_inj ((allDigits_toDigits m).ne rfl)
    ((allDigits_toDigits n).ne rfl) h
  rw [← Decimal.ofDigits_toDigits m, hdigits, Decimal.ofDigits_toDigits]
  exact ⟨rfl, hrest⟩

end Leaves

namespace Domain

/-! ### Domains that are written alike -/

mutual

/-- Whether two domains have one shape and the same atoms and sizes, and their intervals ends that
    are written alike. -/
def alike : Domain → Domain → Bool
  | all a, all b => a = b
  | bounded _ i, bounded _ j => i.alike j
  | vector d, vector e => d.alike e
  | sized d m, sized e n => d.alike e && m = n
  | map k v, map l w => k.alike l && v.alike w
  | product _ ds, product _ es => alikeParts ds es
  | erased d, erased e => d.alike e
  | _, _ => false

def alikeParts : List Domain → List Domain → Bool
  | [], [] => true
  | d :: ds, e :: es => d.alike e && alikeParts ds es
  | _, _ => false

end

/-- The name that starts the text of a domain. -/
def kind : Domain → String
  | all _ => "AllDomain"
  | bounded .. => "BoundedDomain"
  | vector _ => "VectorDomain"
  | sized .. => "SizedDomain"
  | map .. => "MapDomain"
  | product .. => "ProductDomain"
  | erased _ => "AnyDomain"

/-- What stands in the brackets after the name. -/
def inside : Domain → List Char
  | all a => a.display.toList
  | bounded _ i => i.text.toList
  | vector d | erased d => d.text.toList
  | sized d n => d.text.toList ++ ", size=".toList ++ (toString n).toList
  | map k v => k.text.toList ++ " => ".toList ++ v.text.toList
  | product _ ds => '[' :: (listed (fun d => d.text.toList) ds ++ [']'])

theorem toList_textParts : (ds : List Domain) →
    (textParts ds).toList = listed (fun d => d.text.toList) ds
  | [] => rfl
  | [d] => (List.append_nil _).symm
  | d :: e :: es => by
    unfold textParts
    rw [String.toList_append, String.toList_append, toList_textParts (e :: es), List.append_assoc]
    rfl

theorem toList_text (d : Domain) : d.text.toList = d.kind.toList ++ '(' :: (d.inside ++ [')']) := by
  cases d <;> unfold text kind inside <;> simp [toList_textParts]

theorem headed : Headed (fun d => d.text.toList) kind inside '(' ')' where
  text_eq := toList_text
  opening_notMem d := by cases d <;> simp [kind]

theorem bracket_ne_text (d : Domain) (r r' : List Char) : ']' :: r ≠ d.text.toList ++ r' :=
  headed.cons_ne (fun d => by cases d <;> simp [kind]) d r r'

theorem alikeParts_iff {ds es : List Domain} :
    alikeParts ds es = true ↔ List.Forall₂ (fun d e => d.alike e = true) ds es := by
  induction ds generalizing es with
  | nil => cases es <;> simp [alikeParts]
  | cons d ds ih => cases es <;> simp [alikeParts, ih]

mutual

theorem uniquelyRead : (d : Domain) →
    UniquelyRead (fun d e => d.alike e = true) (fun d => d.text.toList) d
  | all a => by
    refine headed.uniquelyRead fun e hkind r r' hinside => ?_
    cases e with
    | all b =>
      obtain ⟨hatom, hrest⟩ := Atom.eq_of_display rfl hinside
      unfold alike
      exact ⟨decide_eq_true hatom, hrest⟩
    | _ => exact absurd hkind (by simp [kind])
  | bounded _ i => by
    refine headed.uniquelyRead fun e hkind r r' hinside => ?_
    cases e with
    | bounded _ j =>
      obtain ⟨halike, hrest⟩ := Interval.alike_of_text hinside
      unfold alike
      exact ⟨halike, (List.cons.inj hrest).2⟩
    | _ => exact absurd hkind (by simp [kind])
  | vector d => by
    refine headed.uniquelyRead fun e hkind r r' hinside => ?_
    cases e with
    | vector e =>
      obtain ⟨halike, hrest⟩ := uniquelyRead d e _ _ hinside
      unfold alike
      exact ⟨halike, (List.cons.inj hrest).2⟩
    | _ => exact absurd hkind (by simp [kind])
  | sized d m => by
    refine headed.uniquelyRead fun e hkind r r' hinside => ?_
    cases e with
    | sized e n =>
      unfold inside at hinside
      simp only [List.append_assoc] at hinside
      obtain ⟨halike, hrest⟩ := uniquelyRead d e _ _ hinside
      obtain ⟨hsize, hrest⟩ := size_of_text (List.append_cancel_left hrest)
      unfold alike
      exact ⟨Bool.and_eq_true_iff.mpr ⟨halike, decide_eq_true hsize⟩, hrest⟩
    | _ => exact absurd hkind (by simp [kind])
  | map k d => by
    refine headed.uniquelyRead fun e hkind r r' hinside => ?_
    cases e with
    | map l e =>
      unfold inside at hinside
      simp only [List.append_assoc] at hinside
      obtain ⟨hkeys, hrest⟩ := uniquelyRead k l _ _ hinside
      obtain ⟨hvalues, hrest⟩ := uniquelyRead d e _ _ (List.append_cancel_left hrest)
      unfold alike
      exact ⟨Bool.and_eq_true_iff.mpr ⟨hkeys, hvalues⟩, (List.cons.inj hrest).2⟩
    | _ => exact absurd hkind (by simp [kind])
  | product _ ds => by
    refine headed.uniquelyRead fun e hkind r r' hinside => ?_
    cases e with
    | product _ es =>
      unfold inside at hinside
      simp only [List.cons_append, List.append_assoc, List.nil_append] at hinside
      obtain ⟨hparts, hrest⟩ := UniquelyRead.listed (uniquelyRead_of_mem ds) (by decide)
        bracket_ne_text (List.cons.inj hinside).2
      unfold alike
      exact ⟨alikeParts_iff.mpr hparts, (List.cons.inj hrest).2⟩
    | _ => exact absurd hkind (by simp [kind])
  | erased d => by
    refine headed.uniquelyRead fun e hkind r r' hinside => ?_
    cases e with
    | erased e =>
      obtain ⟨halike, hrest⟩ := uniquelyRead d e _ _ hinside
      unfold alike
      exact ⟨halike, (List.cons.inj hrest).2⟩
    | _ => exact absurd hkind (by simp [kind])

theorem uniquelyRead_of_mem : (ds : List Domain) → ∀ d ∈ ds,
    UniquelyRead (fun d e => d.alike e = true) (fun d => d.text.toList) d
  | [] => List.forall_mem_nil _
  | d :: ds => List.forall_mem_cons.mpr ⟨uniquelyRead d, uniquelyRead_of_mem ds⟩

end

mutual

theorem text_eq_of_alike : (d e : Domain) → d.alike e = true → d.text = e.text
  | all a, e, h => by
    cases e with
    | all b => rw [of_decide_eq_true h]
    | _ => cases h
  | bounded _ i, e, h => by
    cases e with
    | bounded _ j =>
      unfold alike at h
      unfold text
      rw [Interval.text_eq_of_alike h]
    | _ => cases h
  | vector d, e, h => by
    cases e with
    | vector e =>
      unfold alike at h
      unfold text
      rw [text_eq_of_alike d e h]
    | _ => cases h
  | sized d m, e, h => by
    cases e with
    | sized e n =>
      unfold alike at h
      obtain ⟨halike, hsize⟩ := Bool.and_eq_true_iff.mp h
      unfold text
      rw [text_eq_of_alike d e halike, of_decide_eq_true hsize]
    | _ => cases h
  | map k d, e, h => by
    cases e with
    | map l e =>
      unfold alike at h
      obtain ⟨hkeys, hvalues⟩ := Bool.and_eq_true_iff.mp h
      unfold text
      rw [text_eq_of_alike k l hkeys, text_eq_of_alike d e hvalues]
    | _ => cases h
  | product _ ds, e, h => by
    cases e with
    | product _ es =>
      have hparts := listed_congr (texts_eq_of_alike ds es h)
      rw [← toList_textParts, ← toList_textParts, String.toList_inj] at hparts
      unfold text
      rw [hparts]
    | _ => cases h
  | erased d, e, h => by
    cases e with
    | erased e =>
      unfold alike at h
      unfold text
      rw [text_eq_of_alike d e h]
    | _ => cases h

theorem texts_eq_of_alike : (ds es : List Domain) → alikeParts ds es = true →
    ds.map (fun d => d.text.toList) = es.map (fun e => e.text.toList)
  | [], [], _ => rfl
  | [], e :: es, h => by cases h
  | d :: ds, [], h => by cases h
  | d :: ds, e :: es, h => by
    unfold alikeParts at h
    obtain ⟨hfirst, hrest⟩ := Bool.and_eq_true_iff.mp h
    rw [List.map_cons, List.map_cons, text_eq_of_alike d e hfirst, texts_eq_of_alike ds es hrest]

end

theorem text_eq_iff {d e : Domain} : d.text = e.text ↔ d.alike e = true := by
  refine ⟨fun h => (d.uniquelyRead e [] [] ?_).1, text_eq_of_alike d e⟩
  change d.text.toList ++ [] = e.text.toList ++ []
  rw [h]

/-- Erased domains are compared by what their texts tell. -/
theorem erased_eq (d e : Domain) : (erased d).eq (erased e) = d.alike e := by
  unfold eq
  rw [Bool.eq_iff_iff, decide_eq_true_iff, text_eq_iff]

end Domain
end DifferentialPrivacy
