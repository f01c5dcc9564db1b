import DifferentialPrivacy.Descriptor.Basic
import Mathlib.Data.List.Forall2

set_option autoImplicit false

/-!
# Texts that are read in one way

A text is read in one way if no other text begins as it does, whatever stands behind either of them.
A part whose end is marked by a character that it does not contain is one, such as the name of an atom
in front of a bracket, and so is a list of parts that are, with commas between them and a bracket
behind.
-/
namespace DifferentialPrivacy

/-- The first separator ends the same part on both sides. -/
theorem append_separator_inj {xs ys zs ws : List Char} {c : Char} (hx : c ∉ xs) (hy : c ∉ ys)
    (h : xs ++ c :: zs = ys ++ c :: ws) : xs = ys ∧ zs = ws := by
  induction xs generalizing ys with
  | nil =>
    cases ys with
    | nil => exact ⟨rfl, (List.cons.inj h).2⟩
    | cons y ys => exact absurd ((List.cons.inj h).1 ▸ List.mem_cons_self) hy
  | cons x xs ih =>
    cases ys with
    | nil => exact absurd ((List.cons.inj h).1 ▸ List.mem_cons_self) hx
    | cons y ys =>
      obtain ⟨rfl, htail⟩ := List.cons.inj h
      rw [List.mem_cons, not_or] at hx hy
      obtain ⟨rfl, hrest⟩ := ih hx.2 hy.2 htail
      exact ⟨rfl, hrest⟩

section Lists

variable {α : Type} {R : α → α → Prop} {text : α → List Char} {close : Char} {as bs : List α}
  {r r' : List Char}

/-- Only the texts of related things begin as the text of `a` does, and they end where it ends. -/
def UniquelyRead (R : α → α → Prop) (text : α → List Char) (a : α) : Prop :=
  ∀ b r r', text a ++ r = text b ++ r' → R a b ∧ r = r'

/-- Texts with a comma and a blank in front of each. -/
def continued (text : α → List Char) (as : List α) : List Char :=
  as.flatMap fun a => ',' :: ' ' :: text a

/-- Texts with a comma and a blank between neighbours. -/
def listed (text : α → List Char) : List α → List Char
  | [] => []
  | a :: as => text a ++ continued text as

theorem continued_cons_append (text : α → List Char) (a : α) (as : List α) (r : List Char) :
    continued text (a :: as) ++ r = ',' :: ' ' :: (text a ++ (continued text as ++ r)) := by
  unfold continued
  rw [List.flatMap_cons, List.append_assoc]
  rfl

theorem listed_cons_append (text : α → List Char) (a : α) (as : List α) (r : List Char) :
    listed text (a :: as) ++ r = text a ++ (continued text as ++ r) := List.append_assoc ..

theorem listed_congr (h : as.map text = bs.map text) : listed text as = listed text bs := by
  have hcontinued : ∀ cs : List α,
      continued text cs = (cs.map text).flatMap fun t => ',' :: ' ' :: t := by
    intro cs
    unfold continued
    rw [List.flatMap_map]
  cases as <;> cases bs <;> simp_all [listed]

theorem UniquelyRead.continued (h : ∀ a ∈ as, UniquelyRead R text a) (hclose : close ≠ ',')
    (heq : continued text as ++ close :: r = continued text bs ++ close :: r') :
    List.Forall₂ R as bs ∧ r = r' := by
  induction as generalizing bs with
  | nil =>
    cases bs with
    | nil => exact ⟨.nil, (List.cons.inj heq).2⟩
    | cons b bs => exact absurd (List.cons.inj heq).1 hclose
  | cons a as ih =>
    obtain ⟨ha, has⟩ := List.forall_mem_cons.mp h
    cases bs with
    | nil => exact absurd (List.cons.inj heq).1.symm hclose
    | cons b bs =>
      rw [continued_cons_append, continued_cons_append] at heq
      obtain ⟨hab, hrest⟩ := ha b _ _ (List.cons.inj (List.cons.inj heq).2).2
      obtain ⟨hall, hend⟩ := ih has hrest
      exact ⟨.cons hab hall, hend⟩

/-- A list of texts that never begin with the closing bracket. -/
theorem UniquelyRead.listed (h : ∀ a ∈ as, UniquelyRead R text a) (hclose : close ≠ ',')
    (hstart : ∀ a r r', close :: r ≠ text a ++ r')
    (heq : listed text as ++ close :: r = listed text bs ++ close :: r') :
    List.Forall₂ R as bs ∧ r = r' := by
  cases as with
  | nil =>
    cases bs with
    | nil => exact ⟨.nil, (List.cons.inj heq).2⟩
    | cons b bs => exact absurd (heq.trans (listed_cons_append ..)) (hstart b _ _)
  | cons a as =>
    cases bs with
    | nil => exact absurd (heq.symm.trans (listed_cons_append ..)) (hstart a _ _)
    | cons b bs =>
      obtain ⟨ha, has⟩ := List.forall_mem_cons.mp h
      rw [listed_cons_append, listed_cons_append] at heq
      obtain ⟨hab, hrest⟩ := ha b _ _ heq
      obtain ⟨hall, hend⟩ := UniquelyRead.continued has hclose hrest
      exact ⟨.cons hab hall, hend⟩

end Lists

/-! ### Names in front of brackets -/

section Headed

variable {α : Type} {R : α → α → Prop} {text inside : α → List Char} {heading : α → String}
  {opening closing : Char}

/-- Texts that consist of a name and of what stands in the brackets after it. -/
structure Headed (text : α → List Char) (heading : α → String) (inside : α → List Char)
    (opening closing : Char) : Prop where
  text_eq : ∀ a, text a = (heading a).toList ++ opening :: (inside a ++ [closing])
  opening_notMem : ∀ a, opening ∉ (heading a).toList

/-- Such a text is read in one way if its inside is, among those of the same name. -/
theorem Headed.uniquelyRead (h : Headed text heading inside opening closing) {a : α}
    (hinside : ∀ b, heading a = heading b → ∀ r r',
      inside a ++ closing :: r = inside b ++ closing :: r' → R a b ∧ r = r') :
    UniquelyRead R text a := by
  intro b r r' heq
  rw [h.text_eq, h.text_eq] at heq
  simp only [List.append_assoc, List.cons_append, List.nil_append] at heq
  obtain ⟨hheading, hrest⟩ := append_separator_inj (h.opening_notMem a) (h.opening_notMem b) heq
  exact hinside b (String.toList_inj.mp hheading) r r' hrest

theorem Headed.cons_ne (h : Headed text heading inside opening closing) {c : Char}
    (hfirst : ∀ a, ∃ x xs, (heading a).toList = x :: xs ∧ x ≠ c) (a : α) (r r' : List Char) :
    c :: r ≠ text a ++ r' := by
  intro heq
  obtain ⟨x, xs, hheading, hx⟩ := hfirst a
  rw [h.text_eq, hheading] at heq
  exact hx (List.cons.inj heq).1.symm

end Headed

/-! ### Names of atoms -/

theorem NumType.ofName?_name (t : NumType) : ofName? t.name = some t := by
  cases t with
  | int t => cases t <;> decide +kernel
  | float f => cases f <;> decide +kernel

theorem Atom.display_injective : Function.Injective Atom.display := by
  have hnum : ∀ (t : NumType) {s : String}, NumType.ofName? s = none → t.name ≠ s := by
    intro t s hs h
    rw [← h, NumType.ofName?_name] at hs
    cases hs
  have hbool : NumType.ofName? "bool" = none := by decide +kernel
  have hstring : NumType.ofName? "String" = none := by decide +kernel
  intro a b h
  cases a <;> cases b
  case num.num s t =>
    have hname : some s = some t := by
      rw [← s.ofName?_name, ← t.ofName?_name]
      exact congrArg NumType.ofName? h
    rw [Option.some.inj hname]
  case bool.num t => exact absurd h.symm (hnum t hbool)
  case num.bool s => exact absurd h (hnum s hbool)
  case string.num t => exact absurd h.symm (hnum t hstring)
  case num.string s => exact absurd h (hnum s hstring)
  case bool.string => exact absurd h (by decide)
  case string.bool => exact absurd h (by decide)
  all_goals rfl

theorem Atom.isAlphanum_of_mem_display {a : Atom} {c : Char} (h : c ∈ a.display.toList) :
    c.isAlphanum = true := by
  have hall : a.display.toList.all Char.isAlphanum = true := by
    rcases a with _ | (t | f) | _
    · decide
    · cases t <;> decide
    · cases f <;> decide
    · decide
  exact List.all_eq_true.mp hall c h

theorem Atom.notMem_display (a : Atom) {c : Char} (hc : c.isAlphanum = false) :
    c ∉ a.display.toList := by
  intro h
  rw [isAlphanum_of_mem_display h] at hc
  cases hc

/-- An atom in front of a separator. -/
theorem Atom.eq_of_display {a b : Atom} {c : Char} {r r' : List Char} (hc : c.isAlphanum = false)
    (h : a.display.toList ++ c :: r = b.display.toList ++ c :: r') : a = b ∧ r = r' := by
  obtain ⟨hname, hrest⟩ := append_separator_inj (a.notMem_display hc) (b.notMem_display hc) h
  exact ⟨display_injective (String.toList_inj.mp hname), hrest⟩

end DifferentialPrivacy
