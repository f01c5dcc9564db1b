import DifferentialPrivacy.Proofs.Text.JsonText
import DifferentialPrivacy.Text.Record
import Mathlib.Data.List.Permutation

set_option autoImplicit false

/-!
# Members in another order

The members of an object may stand in any order. A rearranged document nests as deep as before, and
a tagged value or a record that is read from it has the same parts.
-/
namespace DifferentialPrivacy

namespace Json

mutual

/-- The same document with the members of its objects in other orders, at any place inside. -/
inductive Rearranged : Json → Json → Prop
  | null : Rearranged null null
  | bool (b : Bool) : Rearranged (bool b) (bool b)
  | number (digits : String) : Rearranged (number digits) (number digits)
  | string (s : String) : Rearranged (string s) (string s)
  | unreadable : Rearranged unreadable unreadable
  | array {xs ys : List Json} (h : RearrangedElements xs ys) : Rearranged (array xs) (array ys)
  | object {ms ns os : List (String × Json)} (h : RearrangedMembers ms ns) (hp : ns.Perm os) :
    Rearranged (object ms) (object os)

inductive RearrangedElements : List Json → List Json → Prop
  | nil : RearrangedElements [] []
  | cons {x y : Json} {xs ys : List Json} (h : Rearranged x y) (hs : RearrangedElements xs ys) :
    RearrangedElements (x :: xs) (y :: ys)

inductive RearrangedMembers : List (String × Json) → List (String × Json) → Prop
  | nil : RearrangedMembers [] []
  | cons {x y : Json} {ms ns : List (String × Json)} (name : String) (h : Rearranged x y)
    (hs : RearrangedMembers ms ns) : RearrangedMembers ((name, x) :: ms) ((name, y) :: ns)

end

mutual

theorem Rearranged.refl : (j : Json) → Rearranged j j
  | .null => .null
  | .bool b => .bool b
  | .number digits => .number digits
  | .string s => .string s
  | .array xs => .array (RearrangedElements.refl xs)
  | .object ms => .object (RearrangedMembers.refl ms) (List.Perm.refl ms)
  | .unreadable => .unreadable

theorem RearrangedElements.refl : (xs : List Json) → RearrangedElements xs xs
  | [] => .nil
  | x :: xs => .cons (Rearranged.refl x) (RearrangedElements.refl xs)

theorem RearrangedMembers.refl : (ms : List (String × Json)) → RearrangedMembers ms ms
  | [] => .nil
  | (name, x) :: ms => .cons name (Rearranged.refl x) (RearrangedMembers.refl ms)

end

theorem fitsMembers_eq_all (n : Nat) (ms : List (String × Json)) :
    fitsMembers n ms = ms.all fun m => m.2.fits n := by
  induction ms with
  | nil => rfl
  | cons m ms ih => rw [List.all_cons, ← ih, fitsMembers]

theorem legibleMembers_iff {ms : List (String × Json)} :
    LegibleMembers ms ↔ ∀ m ∈ ms, m.2.Legible := by
  induction ms with
  | nil => simp [LegibleMembers]
  | cons m ms ih => rw [List.forall_mem_cons, ← ih, LegibleMembers]

theorem legibleElements_iff {xs : List Json} : LegibleElements xs ↔ ∀ x ∈ xs, x.Legible := by
  induction xs with
  | nil => simp [LegibleElements]
  | cons x xs ih => rw [List.forall_mem_cons, ← ih, LegibleElements]

mutual

theorem Rearranged.fits_eq {j k : Json} : Rearranged j k → ∀ n, k.fits n = j.fits n
  | .null, _ | .bool _, _ | .number _, _ | .string _, _ | .unreadable, _ => rfl
  | .array h, n => by
    unfold fits
    rw [h.fits_eq]
  | .object h hp, n => by
    unfold fits
    rw [← h.fits_eq, fitsMembers_eq_all, fitsMembers_eq_all, hp.all_eq]

theorem RearrangedElements.fits_eq {xs ys : List Json} : RearrangedElements xs ys →
    ∀ n, fitsElements n ys = fitsElements n xs
  | .nil, _ => rfl
  | .cons h hs, n => by
    unfold fitsElements
    rw [h.fits_eq, hs.fits_eq]

theorem RearrangedMembers.fits_eq {ms ns : List (String × Json)} : RearrangedMembers ms ns →
    ∀ n, fitsMembers n ns = fitsMembers n ms
  | .nil, _ => rfl
  | .cons _ h hs, n => by
    unfold fitsMembers
    rw [h.fits_eq, hs.fits_eq]

end

mutual

theorem Rearranged.legible {j k : Json} : Rearranged j k → j.Legible → k.Legible
  | .null, hj | .bool _, hj | .number _, hj | .string _, hj | .unreadable, hj => hj
  | .array h, hj => h.legible hj
  | .object h hp, hj => by
    have hns := legibleMembers_iff.mp (h.legible hj)
    exact legibleMembers_iff.mpr fun m hm => hns m (hp.mem_iff.mpr hm)

theorem RearrangedElements.legible {xs ys : List Json} : RearrangedElements xs ys →
    LegibleElements xs → LegibleElements ys
  | .nil, hxs => hxs
  | .cons h hs, hxs => ⟨h.legible hxs.1, hs.legible hxs.2⟩

theorem RearrangedMembers.legible {ms ns : List (String × Json)} : RearrangedMembers ms ns →
    LegibleMembers ms → LegibleMembers ns
  | .nil, hms => hms
  | .cons _ h hs, hms => ⟨h.legible hms.1, hs.legible hms.2⟩

end

/-! ### Tagged values -/

/-- A tagged value with its two members in either order. -/
def Tags (j : Json) (kind : String) (content : Json) : Prop :=
  j = object [("kind", string kind), ("of", content)] ∨
    j = object [("of", content), ("kind", string kind)]

theorem Rearranged.tags {kind : String} {content j : Json}
    (h : Rearranged (tagged kind (some content)) j) :
    ∃ content', Rearranged content content' ∧ j.Tags kind content' := by
  cases h with
  | object h hp =>
    obtain _ | ⟨_, hkind, _ | ⟨_, hcontent, ⟨⟩⟩⟩ := h
    cases hkind
    obtain rfl | rfl := List.pair_perm.mp hp
    · exact ⟨_, hcontent, Or.inl rfl⟩
    · exact ⟨_, hcontent, Or.inr rfl⟩

theorem Rearranged.eq_of_tagged_none {kind : String} {j : Json}
    (h : Rearranged (tagged kind none) j) : j = tagged kind none := by
  cases h with
  | object h hp =>
    obtain _ | ⟨_, hkind, ⟨⟩⟩ := h
    cases hkind
    rw [← List.singleton_perm.mp hp]
    rfl

variable {j content : Json} {kind : String}

theorem Tags.fits_eq (h : j.Tags kind content) (depth : Nat) :
    j.fits depth = (decide (depth ≠ 0) && content.fits (depth - 1)) := by
  obtain rfl | rfl := h <;> simp [fits, fitsMembers]

end Json

/-- Content that comes before its name has to fit as a whole, so what cannot be set aside does not
    fit. -/
theorem Json.Tags.tagged?_cases {j content : Json} {kind : String} (h : j.Tags kind content)
    (depth : Nat) (deferred : Bool) :
    ((⟨depth, deferred, j⟩ : Reading).tagged? = none ∧ j.fits depth = false) ∨
      ∃ deferred', depth ≠ 0 ∧ (⟨depth, deferred, j⟩ : Reading).tagged? =
        some (kind, some ⟨depth - 1, deferred', content⟩) := by
  rw [h.fits_eq]
  cases depth with
  | zero =>
    obtain rfl | rfl := h
    · exact Or.inl ⟨rfl, rfl⟩
    · exact Or.inl ⟨rfl, rfl⟩
  | succ depth =>
    obtain rfl | rfl := h
    · exact Or.inr ⟨deferred, Nat.succ_ne_zero depth, rfl⟩
    · have htagged : (⟨depth + 1, deferred, .object [("of", content), ("kind", .string kind)]⟩ :
          Reading).tagged? = if content.fits depth then
            some (kind, some ⟨depth, true, content⟩) else none := rfl
      rw [htagged]
      cases hfits : content.fits depth with
      | false => exact Or.inl ⟨rfl, by simp [hfits]⟩
      | true => exact Or.inr ⟨true, Nat.succ_ne_zero depth, rfl⟩

/-! ### Records -/

namespace Reading

variable {β : Type}

theorem filter_name_eq {members : List (String × β)} (hn : (members.map Prod.fst).Nodup)
    {m : String × β} (hm : m ∈ members) : (members.filter fun x => x.1 = m.1) = [m] := by
  induction members with
  | nil => cases hm
  | cons x members ih =>
    rw [List.map_cons, List.nodup_cons] at hn
    obtain rfl | hm := List.mem_cons.mp hm
    · have hrest : (members.filter fun x => x.1 = m.1) = [] := by
        rw [List.filter_eq_nil_iff]
        intro y hy heq
        exact hn.1 (List.mem_map.mpr ⟨y, hy, of_decide_eq_true heq⟩)
      rw [List.filter_cons, if_pos (decide_eq_true rfl), hrest]
    · have hne : x.1 ≠ m.1 := fun heq => hn.1 (heq ▸ List.mem_map_of_mem hm)
      rw [List.filter_cons_of_neg (by simpa using hne), ih hn.2 hm]

theorem mapM_names_eq_some {γ : Type} {members : List (String × β)} {f : String → Option γ}
    {g : String × β → γ} (h : ∀ m ∈ members, f m.1 = some (g m)) :
    (members.map Prod.fst).mapM f = some (members.map g) := by
  induction members with
  | nil => rfl
  | cons m members ih =>
    rw [List.forall_mem_cons] at h
    rw [List.map_cons, List.mapM_cons, h.1, ih h.2]
    rfl

end Reading

namespace Json

/-- An object with the given members, in any order. -/
def HasMembers (j : Json) (ms : List (String × Json)) : Prop := ∃ os, j = object os ∧ ms.Perm os

theorem Rearranged.hasMembers {ms : List (String × Json)} {j : Json}
    (h : Rearranged (.object ms) j) : ∃ ns, RearrangedMembers ms ns ∧ j.HasMembers ns := by
  cases h with
  | object h hp => exact ⟨_, h, _, rfl, hp⟩

/-- A record is read with its fields in their own order. -/
theorem HasMembers.record?_eq {j : Json} {ms : List (String × Json)} (h : j.HasMembers ms)
    (hn : (ms.map Prod.fst).Nodup) (depth : Nat) (deferred : Bool) :
    (⟨depth, deferred, j⟩ : Reading).record? (ms.map Prod.fst) =
      if depth = 0 then none else some (ms.map fun m => ⟨depth - 1, deferred, m.2⟩) := by
  obtain ⟨os, rfl, hp⟩ := h
  cases depth with
  | zero => rfl
  | succ depth =>
    change (ms.map Prod.fst).mapM
      (Reading.field? (os.map fun m => (m.1, ⟨depth, deferred, m.2⟩))) = _
    refine Reading.mapM_names_eq_some fun m hm => ?_
    have hnames : ((os.map fun m => (m.1, (⟨depth, deferred, m.2⟩ : Reading))).map
        Prod.fst).Nodup := by
      rw [List.map_map]
      exact (hp.map Prod.fst).nodup_iff.mp hn
    have hmem := List.mem_map_of_mem (f := fun m : String × Json =>
      (m.1, (⟨depth, deferred, m.2⟩ : Reading))) (hp.mem_iff.mp hm)
    unfold Reading.field?
    rw [Reading.filter_name_eq hnames hmem]
    rfl

end Json

end DifferentialPrivacy
