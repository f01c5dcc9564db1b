import DifferentialPrivacy.Proofs.Text.Rearrangement

set_option autoImplicit false

/-!
# Damaged documents

One mishap in the document of a descriptor: a member is lost or stands there twice, or a map has no
longer two parts. Where a tagged value or a record is damaged, either it can no longer be read, or
the damage is in one of its parts.
-/
namespace DifferentialPrivacy

namespace Json

/-- The document after one mishap, at any place inside. A member that is repeated may come with other
    content, and the parts of a map may be any others of another number. -/
inductive Damaged : Json → Json → Prop
  | removed (before : List (String × Json)) (m : String × Json) (after : List (String × Json)) :
    Damaged (.object (before ++ m :: after)) (.object (before ++ after))
  | repeated (before : List (String × Json)) (m : String × Json) (after : List (String × Json))
    (hname : m.1 ∈ (before ++ after).map Prod.fst) (hm : m.2.Legible) :
    Damaged (.object (before ++ after)) (.object (before ++ m :: after))
  | resized (before : List (String × Json)) {xs ys : List Json} (after : List (String × Json))
    (hkind : ("kind", .string "Map") ∈ before ++ after) (hlen : ys.length ≠ 2)
    (hys : LegibleElements ys) :
    Damaged (.object (before ++ ("of", .array xs) :: after))
      (.object (before ++ ("of", .array ys) :: after))
  | element (before : List Json) {x y : Json} (after : List Json) (h : Damaged x y) :
    Damaged (.array (before ++ x :: after)) (.array (before ++ y :: after))
  | member (before : List (String × Json)) (name : String) {x y : Json}
    (after : List (String × Json)) (h : Damaged x y) :
    Damaged (.object (before ++ (name, x) :: after)) (.object (before ++ (name, y) :: after))

theorem legibleMembers_append_cons {before after : List (String × Json)} {m : String × Json} :
    LegibleMembers (before ++ m :: after) ↔ m.2.Legible ∧ LegibleMembers (before ++ after) := by
  simp only [legibleMembers_iff, List.forall_mem_append, List.forall_mem_cons]
  exact and_left_comm

theorem legibleElements_append_cons {before after : List Json} {x : Json} :
    LegibleElements (before ++ x :: after) ↔ x.Legible ∧ LegibleElements (before ++ after) := by
  simp only [legibleElements_iff, List.forall_mem_append, List.forall_mem_cons]
  exact and_left_comm

theorem Damaged.legible {j k : Json} (h : Damaged j k) (hj : j.Legible) : k.Legible := by
  induction h with
  | removed before m after => exact (legibleMembers_append_cons.mp hj).2
  | repeated before m after hname hm => exact legibleMembers_append_cons.mpr ⟨hm, hj⟩
  | resized before after hkind hlen hys =>
    exact legibleMembers_append_cons.mpr ⟨hys, (legibleMembers_append_cons.mp hj).2⟩
  | element before after h ih =>
    obtain ⟨hx, hxs⟩ := legibleElements_append_cons.mp hj
    exact legibleElements_append_cons.mpr ⟨ih hx, hxs⟩
  | member before name after h ih =>
    obtain ⟨hx, hms⟩ := legibleMembers_append_cons.mp hj
    exact legibleMembers_append_cons.mpr ⟨ih hx, hms⟩

theorem Damaged.of_array {xs : List Json} {j : Json} (h : Damaged (.array xs) j) :
    ∃ before x y after, xs = before ++ x :: after ∧ j = .array (before ++ y :: after) ∧
      Damaged x y := by
  cases h with
  | element before after h => exact ⟨before, _, _, after, rfl, rfl, h⟩

end Json

/-! ### Tagged values -/

theorem append_cons_eq_pair {α : Type} {before after : List α} {m a b : α}
    (h : before ++ m :: after = [a, b]) :
    (before = [] ∧ m = a ∧ after = [b]) ∨ (before = [a] ∧ m = b ∧ after = []) := by
  cases before with
  | nil =>
    cases h
    exact Or.inl ⟨rfl, rfl, rfl⟩
  | cons x before =>
    cases before with
    | nil =>
      cases h
      exact Or.inr ⟨rfl, rfl, rfl⟩
    | cons y before => simp at h

theorem append_cons_eq_singleton {α : Type} {before after : List α} {m a : α}
    (h : before ++ m :: after = [a]) : before = [] ∧ m = a ∧ after = [] := by
  cases before with
  | nil =>
    cases h
    exact ⟨rfl, rfl, rfl⟩
  | cons x before => simp at h

namespace Reading

/-- Three members that count are never those of one tagged value. -/
theorem tagged?_eq_none_of_length {ms : List (String × Json)}
    (hnames : ∀ m ∈ ms, m.1 = "kind" ∨ m.1 = "of") (hlen : 2 < ms.length) (depth : Nat)
    (deferred : Bool) : (⟨depth, deferred, .object ms⟩ : Reading).tagged? = none := by
  cases depth with
  | zero => rfl
  | succ depth =>
    have hfilter : (ms.map fun m => (m.1, (⟨depth, deferred, m.2⟩ : Reading))).filter
        (fun m => m.1 = "kind" || m.1 = "of") =
          ms.map fun m => (m.1, (⟨depth, deferred, m.2⟩ : Reading)) := by
      refine List.filter_eq_self.mpr fun m hm => ?_
      obtain ⟨n, hn, rfl⟩ := List.mem_map.mp hm
      simpa using hnames n hn
    have hmembers : (⟨depth + 1, deferred, .object ms⟩ : Reading).members? =
        some (ms.map fun m => (m.1, (⟨depth, deferred, m.2⟩ : Reading))) := rfl
    unfold tagged?
    dsimp only
    rw [hmembers, Option.bind_eq_bind, Option.bind_some, hfilter]
    have hlength : ∀ {ns : List (String × Reading)}, (ms.map fun m =>
        (m.1, (⟨depth, deferred, m.2⟩ : Reading))) = ns → 2 < ns.length := by
      rintro _ rfl
      rw [List.length_map]
      exact hlen
    split <;> rename_i heq
    · exact absurd (hlength heq) (Nat.not_lt.mpr (Nat.le_succ 1))
    · exact absurd (hlength heq) (Nat.lt_irrefl 2)
    · exact absurd (hlength heq) (Nat.lt_irrefl 2)
    · rfl

end Reading

namespace Json

/-- What is left of a tagged value whose content is gone, or cannot be told. -/
def LacksContent (j : Json) (kind : String) : Prop :=
  ∀ depth deferred, (⟨depth, deferred, j⟩ : Reading).tagged? = none ∨
    (⟨depth, deferred, j⟩ : Reading).tagged? = some (kind, none)

theorem lacksContent_kind (kind : String) : LacksContent (.object [("kind", .string kind)]) kind := by
  intro depth deferred
  cases depth with
  | zero => exact Or.inl rfl
  | succ depth => exact Or.inr rfl

theorem lacksContent_of (content : Json) (kind : String) :
    LacksContent (.object [("of", content)]) kind := by
  intro depth deferred
  cases depth with
  | zero => exact Or.inl rfl
  | succ depth => exact Or.inl rfl

/-- The content is damaged, or the parts of a map are no longer two. -/
def DamagedContent (kind : String) (content content' : Json) : Prop :=
  Damaged content content' ∨ kind = "Map" ∧ ∃ ys, content' = .array ys ∧ ys.length ≠ 2

variable {j j' content : Json} {kind : String}

/-- Each of the two members of a tagged value is the kind or the content, and the other is what is
    left without it. -/
theorem Tags.append_cons {before after : List (String × Json)} {m : String × Json}
    (h : (object (before ++ m :: after)).Tags kind content) :
    (m = ("kind", .string kind) ∧ before ++ after = [("of", content)]) ∨
      (m = ("of", content) ∧ before ++ after = [("kind", .string kind)]) := by
  obtain h | h := h <;>
    obtain ⟨rfl, rfl, rfl⟩ | ⟨rfl, rfl, rfl⟩ := append_cons_eq_pair (Json.object.inj h)
  · exact Or.inl ⟨rfl, rfl⟩
  · exact Or.inr ⟨rfl, rfl⟩
  · exact Or.inr ⟨rfl, rfl⟩
  · exact Or.inl ⟨rfl, rfl⟩

theorem tags_append_cons {before after : List (String × Json)}
    (h : before ++ after = [("kind", .string kind)]) (content : Json) :
    (object (before ++ ("of", content) :: after)).Tags kind content := by
  obtain ⟨rfl, rfl⟩ | ⟨rfl, rfl⟩ := List.append_eq_singleton_iff.mp h
  · exact Or.inr rfl
  · exact Or.inl rfl

theorem Tags.damaged (h : j.Tags kind content) (hd : Damaged j j') :
    j'.LacksContent kind ∨
      ∃ content', j'.Tags kind content' ∧ DamagedContent kind content content' := by
  cases hd with
  | removed before m after =>
    left
    obtain ⟨-, hrest⟩ | ⟨-, hrest⟩ := h.append_cons <;> rw [hrest]
    · exact lacksContent_of content kind
    · exact lacksContent_kind kind
  | repeated before m after hname hm =>
    left
    intro depth deferred
    left
    have hmembers : (∀ n ∈ before ++ after, n.1 = "kind" ∨ n.1 = "of") ∧
        (before ++ after).length = 2 := by
      obtain h | h := h <;> rw [Json.object.inj h] <;> simp
    obtain ⟨hnames, hlen⟩ := hmembers
    obtain ⟨n, hn, hname⟩ := List.mem_map.mp hname
    refine Reading.tagged?_eq_none_of_length ?_ ?_ depth deferred
    · intro x hx
      obtain rfl | hx := List.mem_cons.mp (List.perm_middle.mem_iff.mp hx)
      · rw [← hname]
        exact hnames n hn
      · exact hnames x hx
    · rw [List.perm_middle.length_eq, List.length_cons]
      omega
  | resized before after hkind hlen hys =>
    right
    obtain ⟨hm, -⟩ | ⟨-, hrest⟩ := h.append_cons
    · have hname : "of" = "kind" := congrArg Prod.fst hm
      exact absurd hname (by decide)
    · rw [hrest] at hkind
      obtain rfl : "Map" = kind := by simpa using hkind
      exact ⟨_, tags_append_cons hrest _, Or.inr ⟨rfl, _, rfl, hlen⟩⟩
  | element before after hd => obtain h | h := h <;> cases h
  | member before name after hd =>
    right
    obtain ⟨hm, -⟩ | ⟨hm, hrest⟩ := h.append_cons <;> cases hm
    · cases hd
    · exact ⟨_, tags_append_cons hrest _, Or.inl hd⟩

theorem Damaged.tagged?_eq_none (hd : Damaged (tagged kind none) j) (depth : Nat)
    (deferred : Bool) : (⟨depth, deferred, j⟩ : Reading).tagged? = none := by
  obtain ⟨ms, hms⟩ : ∃ ms, ms = [("kind", Json.string kind)] := ⟨_, rfl⟩
  change Damaged (.object [("kind", .string kind)]) j at hd
  rw [← hms] at hd
  cases hd with
  | removed before m after =>
    obtain ⟨rfl, -, rfl⟩ := append_cons_eq_singleton hms
    cases depth <;> rfl
  | repeated before m after hname hm =>
    rw [hms] at hname
    obtain ⟨name, x⟩ := m
    obtain rfl : name = "kind" := List.mem_singleton.mp hname
    obtain ⟨rfl, rfl⟩ | ⟨rfl, rfl⟩ := List.append_eq_singleton_iff.mp hms <;> cases depth <;> rfl
  | resized before after hkind hlen hys =>
    obtain ⟨-, hm, -⟩ := append_cons_eq_singleton hms
    have hname : "of" = "kind" := congrArg Prod.fst hm
    exact absurd hname (by decide)
  | member before name after hd =>
    obtain ⟨-, hm, -⟩ := append_cons_eq_singleton hms
    cases hm
    cases hd

end Json

/-! ### Records -/

namespace Reading

theorem mapM_eq_none_of_mem {α β : Type} {f : α → Option β} {xs : List α} {x : α} (hx : x ∈ xs)
    (hf : f x = none) : xs.mapM f = none := by
  induction xs with
  | nil => cases hx
  | cons y ys ih =>
    rw [List.mapM_cons]
    obtain rfl | hx := List.mem_cons.mp hx
    · rw [hf]
      rfl
    · rw [ih hx]
      cases f y <;> rfl

theorem field?_eq_none_of_not_mem {members : List (String × Reading)} {name : String}
    (h : name ∉ members.map Prod.fst) : field? members name = none := by
  have hfilter : (members.filter fun m => m.1 = name) = [] := by
    rw [List.filter_eq_nil_iff]
    intro m hm hname
    exact h (List.mem_map.mpr ⟨m, hm, of_decide_eq_true hname⟩)
  unfold field?
  rw [hfilter]

theorem field?_eq_none_of_repeated {before after : List (String × Reading)} {m : String × Reading}
    (h : m.1 ∈ (before ++ after).map Prod.fst) :
    field? (before ++ m :: after) m.1 = none := by
  obtain ⟨n, hn, hname⟩ := List.mem_map.mp h
  have hothers : 0 < ((before ++ after).filter fun x => x.1 = m.1).length :=
    List.length_pos_of_mem (List.mem_filter.mpr ⟨hn, decide_eq_true hname⟩)
  have hlength : 1 < ((before ++ m :: after).filter fun x => x.1 = m.1).length := by
    rw [List.filter_append, List.length_append] at hothers ⊢
    rw [List.filter_cons, if_pos (decide_eq_true rfl), List.length_cons]
    omega
  unfold field?
  split
  · rename_i heq
    rw [heq] at hlength
    exact absurd hlength (Nat.lt_irrefl 1)
  · rfl

theorem record?_eq_none_of_field {members : List (String × Json)} {names : List String}
    {name : String} (hname : name ∈ names) (hfield : ∀ depth deferred,
      field? (members.map fun m => (m.1, (⟨depth, deferred, m.2⟩ : Reading))) name = none)
    (depth : Nat) (deferred : Bool) :
    (⟨depth, deferred, .object members⟩ : Reading).record? names = none := by
  cases depth with
  | zero => rfl
  | succ depth => exact mapM_eq_none_of_mem hname (hfield depth deferred)

end Reading

namespace Json

/-- A damaged record is unreadable or damaged in one of its fields. -/
theorem HasMembers.damaged {j j' : Json} {ms : List (String × Json)} (h : j.HasMembers ms)
    (hn : (ms.map Prod.fst).Nodup) (hkind : "kind" ∉ ms.map Prod.fst) (hd : Damaged j j') :
    (∀ depth deferred, (⟨depth, deferred, j'⟩ : Reading).record? (ms.map Prod.fst) = none) ∨
      ∃ before name x y after, ms = before ++ (name, x) :: after ∧ Damaged x y ∧
        j'.HasMembers (before ++ (name, y) :: after) := by
  obtain ⟨os, rfl, hp⟩ := h
  have hnames : ∀ {name}, name ∈ os.map Prod.fst ↔ name ∈ ms.map Prod.fst :=
    fun {name} => (hp.map Prod.fst).mem_iff.symm
  have hos : (os.map Prod.fst).Nodup := (hp.map Prod.fst).nodup_iff.mp hn
  cases hd with
  | removed before m after =>
    left
    have hm : m.1 ∈ (before ++ m :: after).map Prod.fst :=
      List.mem_map_of_mem (List.mem_append_right _ List.mem_cons_self)
    rw [List.map_append, List.map_cons, List.nodup_middle, List.nodup_cons, ← List.map_append]
      at hos
    refine Reading.record?_eq_none_of_field (hnames.mp hm) fun depth deferred =>
      Reading.field?_eq_none_of_not_mem ?_
    rw [List.map_map]
    exact hos.1
  | repeated before m after hname hm =>
    left
    refine Reading.record?_eq_none_of_field (hnames.mp hname) fun depth deferred => ?_
    rw [List.map_append, List.map_cons]
    refine Reading.field?_eq_none_of_repeated ?_
    rw [← List.map_append, List.map_map]
    exact hname
  | resized before after hmap hlen hys =>
    have hname : "kind" ∈ (before ++ after).map Prod.fst := List.mem_map_of_mem hmap
    refine absurd (hnames.mp ?_) hkind
    rw [List.map_append, List.mem_append] at hname
    rw [List.map_append, List.map_cons, List.mem_append]
    exact hname.imp_right (List.mem_cons_of_mem _)
  | member before name after hd =>
    right
    rename_i x y
    have hmem : (name, x) ∈ ms :=
      hp.mem_iff.mpr (List.mem_append_right _ List.mem_cons_self)
    obtain ⟨before', after', rfl⟩ := List.append_of_mem hmem
    refine ⟨before', name, x, y, after', rfl, hd, _, rfl, ?_⟩
    have hrest : (before' ++ after').Perm (before ++ after) :=
      (List.perm_middle.symm.trans (hp.trans List.perm_middle)).cons_inv
    exact List.perm_middle.trans ((hrest.cons (name, y)).trans List.perm_middle.symm)

end Json

end DifferentialPrivacy
