import DifferentialPrivacy.Proofs.Text.UniqueReading

set_option autoImplicit false

/-!
# Texts of descriptors

The text of a domain is read in one way, whatever follows it: its name tells the kind, and the bracket
that closes it ends the last part. So the arrow behind a domain can be told from the domain, the commas
of a product from those of its parts, and no two descriptors of one sort are printed alike. A
transformation and a measurement never are.
-/
namespace DifferentialPrivacy

namespace DomainDescriptor

/-- The name that starts the text of a domain. -/
def heading : DomainDescriptor → String
  | all _ => "AllDomain"
  | bounded _ => "BoundedDomain"
  | vector _ => "VectorDomain"
  | sized _ => "SizedDomain"
  | map .. => "MapDomain"
  | product _ => "ProductDomain"

/-- What stands in the brackets after the name. -/
def inside : DomainDescriptor → List Char
  | all a | bounded a => a.display.toList
  | vector d | sized d => d.display.toList
  | map k v => k.display.toList ++ ',' :: ' ' :: v.display.toList
  | product ds => listed (fun d => d.display.toList) ds

theorem toList_displayParts : (ds : List DomainDescriptor) →
    (displayParts ds).toList = listed (fun d => d.display.toList) ds
  | [] => rfl
  | [d] => (List.append_nil _).symm
  | d :: e :: es => by
    unfold displayParts
    rw [String.toList_append, String.toList_append, toList_displayParts (e :: es),
      List.append_assoc]
    rfl

theorem toList_display (d : DomainDescriptor) :
    d.display.toList = d.heading.toList ++ '<' :: (d.inside ++ ['>']) := by
  cases d <;> unfold display heading inside <;> simp [toList_displayParts]

theorem headed : Headed (fun d => d.display.toList) heading inside '<' '>' where
  text_eq := toList_display
  opening_notMem d := by cases d <;> simp [heading]

theorem bracket_ne_display (d : DomainDescriptor) (r r' : List Char) :
    '>' :: r ≠ d.display.toList ++ r' :=
  headed.cons_ne (fun d => by cases d <;> simp [heading]) d r r'

mutual

theorem uniquelyRead : (d : DomainDescriptor) → UniquelyRead Eq (fun d => d.display.toList) d
  | all a => by
    refine headed.uniquelyRead fun e hheading r r' hinside => ?_
    cases e with
    | all b =>
      obtain ⟨rfl, hrest⟩ := Atom.eq_of_display rfl hinside
      exact ⟨rfl, hrest⟩
    | _ => exact absurd hheading (by simp [heading])
  | bounded a => by
    refine headed.uniquelyRead fun e hheading r r' hinside => ?_
    cases e with
    | bounded b =>
      obtain ⟨rfl, hrest⟩ := Atom.eq_of_display rfl hinside
      exact ⟨rfl, hrest⟩
    | _ => exact absurd hheading (by simp [heading])
  | vector d => by
    refine headed.uniquelyRead fun e hheading r r' hinside => ?_
    cases e with
    | vector e =>
      obtain ⟨rfl, hrest⟩ := uniquelyRead d e _ _ hinside
      exact ⟨rfl, (List.cons.inj hrest).2⟩
    | _ => exact absurd hheading (by simp [heading])
  | sized d => by
    refine headed.uniquelyRead fun e hheading r r' hinside => ?_
    cases e with
    | sized e =>
      obtain ⟨rfl, hrest⟩ := uniquelyRead d e _ _ hinside
      exact ⟨rfl, (List.cons.inj hrest).2⟩
    | _ => exact absurd hheading (by simp [heading])
  | map k v => by
    refine headed.uniquelyRead fun e hheading r r' hinside => ?_
    cases e with
    | map l w =>
      unfold inside at hinside
      simp only [List.append_assoc, List.cons_append] at hinside
      obtain ⟨rfl, hvalues⟩ := uniquelyRead k l _ _ hinside
      obtain ⟨rfl, hrest⟩ := uniquelyRead v w _ _ (List.cons.inj (List.cons.inj hvalues).2).2
      exact ⟨rfl, (List.cons.inj hrest).2⟩
    | _ => exact absurd hheading (by simp [heading])
  | product ds => by
    refine headed.uniquelyRead fun e hheading r r' hinside => ?_
    cases e with
    | product es =>
      obtain ⟨hparts, hrest⟩ := UniquelyRead.listed (uniquelyRead_of_mem ds) (by decide)
        bracket_ne_display hinside
      rw [List.forall₂_eq_eq_eq] at hparts
      exact ⟨congrArg product hparts, hrest⟩
    | _ => exact absurd hheading (by simp [heading])

theorem uniquelyRead_of_mem : (ds : List DomainDescriptor) → ∀ d ∈ ds,
    UniquelyRead Eq (fun d => d.display.toList) d
  | [] => List.forall_mem_nil _
  | d :: ds => List.forall_mem_cons.mpr ⟨uniquelyRead d, uniquelyRead_of_mem ds⟩

end

theorem display_injective : Function.Injective display := by
  intro d e h
  refine (d.uniquelyRead e [] [] ?_).1
  change d.display.toList ++ [] = e.display.toList ++ []
  rw [h]

end DomainDescriptor

/-! ### Metrics and measures -/

/-- What follows the name of a kind. -/
def atomTail : Option Atom → List Char
  | none => []
  | some a => '(' :: (a.display.toList ++ [')'])

theorem toList_displayKind (p : String × Option Atom) :
    (displayKind p).toList = p.1.toList ++ atomTail p.2 := by
  obtain ⟨kind, _ | a⟩ := p
  · exact (List.append_nil _).symm
  · simp [displayKind, atomTail]

/-- Without an atom there is no bracket, and with one the first bracket ends the name. -/
theorem atomTail_inj {xs ys : List Char} {a b : Option Atom} (hx : '(' ∉ xs) (hy : '(' ∉ ys)
    (h : xs ++ atomTail a = ys ++ atomTail b) : xs = ys ∧ a = b := by
  have hbracket : ∀ (zs : List Char) (c : Atom), '(' ∈ zs ++ atomTail (some c) :=
    fun zs c => List.mem_append_right zs List.mem_cons_self
  cases a with
  | none =>
    cases b with
    | none => exact ⟨List.append_cancel_right h, rfl⟩
    | some b => exact absurd (h ▸ hbracket ys b) (by simpa [atomTail] using hx)
  | some a =>
    cases b with
    | none => exact absurd (h ▸ hbracket xs a) (by simpa [atomTail] using hy)
    | some b =>
      obtain ⟨hname, hatom⟩ := append_separator_inj hx hy h
      exact ⟨hname, congrArg some (Atom.eq_of_display rfl hatom).1⟩

theorem displayKind_inj {p q : String × Option Atom} (hp : '(' ∉ p.1.toList)
    (hq : '(' ∉ q.1.toList) (h : displayKind p = displayKind q) : p = q := by
  have htext := congrArg String.toList h
  rw [toList_displayKind, toList_displayKind] at htext
  obtain ⟨hname, hatom⟩ := atomTail_inj hp hq htext
  exact Prod.ext (String.toList_inj.mp hname) hatom

theorem blank_notMem_displayKind {p : String × Option Atom} (hp : ' ' ∉ p.1.toList) :
    ' ' ∉ (displayKind p).toList := by
  obtain ⟨kind, _ | a⟩ := p
  · exact hp
  · rw [toList_displayKind]
    simp [atomTail, hp, a.notMem_display (c := ' ') rfl]

theorem MetricDescriptor.notMem_parts (d : MetricDescriptor) :
    '(' ∉ d.parts.1.toList ∧ ' ' ∉ d.parts.1.toList := by
  cases d <;> simp [parts]

theorem MeasureDescriptor.notMem_parts (d : MeasureDescriptor) :
    '(' ∉ d.parts.1.toList ∧ ' ' ∉ d.parts.1.toList := by
  cases d <;> simp [parts]

theorem MetricDescriptor.parts_injective : Function.Injective parts := by
  intro d e h
  cases d <;> cases e <;> simp_all [parts]

theorem MeasureDescriptor.parts_injective : Function.Injective parts := by
  intro d e h
  cases d <;> cases e <;> simp_all [parts]

theorem MetricDescriptor.display_injective : Function.Injective display :=
  fun d e h => parts_injective (displayKind_inj d.notMem_parts.1 e.notMem_parts.1 h)

theorem MeasureDescriptor.display_injective : Function.Injective display :=
  fun d e h => parts_injective (displayKind_inj d.notMem_parts.1 e.notMem_parts.1 h)

/-! ### Steps -/

section Steps

variable {what s s' t t' : String} {d d' e e' : DomainDescriptor}

theorem toList_displayStep (what s t : String) (d e : DomainDescriptor) :
    (displayStep what d.display e.display s t).toList =
      what.toList ++ '(' :: (d.display.toList ++ " -> ".toList ++ (e.display.toList ++
        ", ".toList ++ (s.toList ++ ' ' :: ("-> ".toList ++ (t.toList ++ [')']))))) := by
  simp [displayStep]

/-- The domains end by themselves, and the first distance at the next blank. -/
theorem displayStep_inj (hs : ' ' ∉ s.toList) (hs' : ' ' ∉ s'.toList)
    (h : displayStep what d.display e.display s t =
      displayStep what d'.display e'.display s' t') : d = d' ∧ e = e' ∧ s = s' ∧ t = t' := by
  have htext := congrArg String.toList h
  simp only [toList_displayStep, List.append_assoc] at htext
  obtain ⟨rfl, hinput⟩ := d.uniquelyRead d' _ _ (List.cons.inj (List.append_cancel_left htext)).2
  obtain ⟨rfl, houtput⟩ := e.uniquelyRead e' _ _ (List.append_cancel_left hinput)
  obtain ⟨hfirst, hrest⟩ := append_separator_inj hs hs' (List.append_cancel_left houtput)
  have hsecond := List.append_cancel_right (List.append_cancel_left hrest)
  exact ⟨rfl, rfl, String.toList_inj.mp hfirst, String.toList_inj.mp hsecond⟩

end Steps

theorem MetricDescriptor.blank_notMem_display (d : MetricDescriptor) : ' ' ∉ d.display.toList :=
  blank_notMem_displayKind d.notMem_parts.2

theorem TransformationDescriptor.display_injective : Function.Injective display := by
  rintro ⟨d, e, m, n⟩ ⟨d', e', m', n'⟩ h
  obtain ⟨rfl, rfl, hm, hn⟩ := displayStep_inj m.blank_notMem_display m'.blank_notMem_display h
  rw [m.display_injective hm, n.display_injective hn]

theorem MeasurementDescriptor.display_injective : Function.Injective display := by
  rintro ⟨d, e, m, μ⟩ ⟨d', e', m', μ'⟩ h
  obtain ⟨rfl, rfl, hm, hμ⟩ := displayStep_inj m.blank_notMem_display m'.blank_notMem_display h
  rw [m.display_injective hm, μ.display_injective hμ]

theorem TransformationDescriptor.display_ne (t : TransformationDescriptor)
    (m : MeasurementDescriptor) : t.display ≠ m.display := by
  intro h
  have htext := congrArg String.toList h
  unfold display MeasurementDescriptor.display at htext
  rw [toList_displayStep, toList_displayStep] at htext
  exact absurd (List.cons.inj htext).1 (by decide)

/-- A text belongs to one descriptor. -/
theorem descriptorText_unambiguous :
    Function.Injective DomainDescriptor.display ∧ Function.Injective MetricDescriptor.display ∧
      Function.Injective MeasureDescriptor.display ∧
      Function.Injective TransformationDescriptor.display ∧
      Function.Injective MeasurementDescriptor.display ∧
      ∀ (t : TransformationDescriptor) (m : MeasurementDescriptor), t.display ≠ m.display :=
  ⟨DomainDescriptor.display_injective, MetricDescriptor.display_injective,
    MeasureDescriptor.display_injective, TransformationDescriptor.display_injective,
    MeasurementDescriptor.display_injective, TransformationDescriptor.display_ne⟩

/-- A product of nothing and one of such a product, and two products that only the grouping of their
    parts tells apart. -/
theorem descriptorText_unambiguous_grouping :
    (DomainDescriptor.product []).display ≠ (DomainDescriptor.product [.product []]).display ∧
    (DomainDescriptor.product [.product [.all .bool], .all .string]).display ≠
      (DomainDescriptor.product [.product [.all .bool, .all .string]]).display := by
  obtain ⟨hdomain, -⟩ := descriptorText_unambiguous
  exact ⟨hdomain.ne (by decide), hdomain.ne (by decide)⟩

end DifferentialPrivacy
