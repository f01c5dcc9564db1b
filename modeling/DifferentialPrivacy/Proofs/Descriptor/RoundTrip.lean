import DifferentialPrivacy.Descriptor.Codec
import DifferentialPrivacy.Proofs.Descriptor.Damage

set_option autoImplicit false

/-!
# Descriptors and their documents

A descriptor reads back from its text, however the members of its objects are arranged, as long as
no more arrays and objects are open at once than a reader allows. After any damage nothing reads
back.
-/
namespace DifferentialPrivacy

/-- What is written can be read back from every arrangement that is not too deep, and from no damaged
    one. -/
structure Faithful {α : Type} (toJson : α → Json) (read? : Reading → Option α) : Prop where
  legible : ∀ d, (toJson d).Legible
  read_rearranged : ∀ {d : α} {j : Json}, Json.Rearranged (toJson d) j → ∀ depth deferred,
    read? ⟨depth, deferred, j⟩ = if (toJson d).fits depth then some d else none
  read_damaged : ∀ {d : α} {j j' : Json}, Json.Rearranged (toJson d) j → Json.Damaged j j' →
    ∀ depth deferred, read? ⟨depth, deferred, j'⟩ = none

theorem Atom.ofTag?_tag (a : Atom) : Atom.ofTag? a.tag = some a := by
  cases a with
  | bool => decide +kernel
  | num t =>
    cases t with
    | int t => cases t <;> decide +kernel
    | float f => cases f <;> decide +kernel
  | string => decide +kernel

theorem Atom.read?_rearranged {a : Atom} {j : Json} (h : Json.Rearranged a.toJson j) (depth : Nat)
    (deferred : Bool) : Atom.read? ⟨depth, deferred, j⟩ = some a := by
  cases h
  exact a.ofTag?_tag

theorem Atom.not_damaged {a : Atom} {j j' : Json} (h : Json.Rearranged a.toJson j) :
    ¬Json.Damaged j j' := by
  cases h
  rintro ⟨⟩

open Json (Rearranged RearrangedElements Damaged Tags)

namespace DomainDescriptor

/-! ### Domains -/

/-- A domain of a kind, read from its content. -/
def readContent? (fuel : Nat) (kind : String) (content : Reading) : Option DomainDescriptor := do
  match kind with
  | "All" => return .all (← Atom.read? content)
  | "Bounded" => return .bounded (← Atom.read? content)
  | "Vector" => return .vector (← readWithin? fuel content)
  | "Sized" => return .sized (← readWithin? fuel content)
  | "Map" =>
    match ← content.elements? with
    | [k, v] => return .map (← readWithin? fuel k) (← readWithin? fuel v)
    | _ => none
  | "Product" => return .product (← (← content.elements?).mapM (readWithin? fuel))
  | _ => none

theorem readWithin?_succ (fuel : Nat) (r : Reading) : readWithin? (fuel + 1) r =
    r.tagged?.bind fun p => p.2.bind (readContent? fuel p.1) := rfl

variable {j c : Json} {kind : String} {fuel depth : Nat} {deferred : Bool} {d : DomainDescriptor}

/-- The depth that the content is read at is one less, and nothing is read at depth zero. -/
theorem readWithin?_of_content (h : Rearranged (.tagged kind (some c)) j)
    (hcontent : ∀ {c'}, depth ≠ 0 → Rearranged c c' → ∀ deferred,
      readContent? fuel kind ⟨depth - 1, deferred, c'⟩ =
        if c.fits (depth - 1) then some d else none) :
    readWithin? (fuel + 1) ⟨depth, deferred, j⟩ =
      if (Json.tagged kind (some c)).fits depth then some d else none := by
  obtain ⟨c', hc, htags⟩ := h.tags
  rw [readWithin?_succ, ← h.fits_eq]
  obtain ⟨hnone, hfits⟩ | ⟨deferred', hdepth, htagged⟩ := htags.tagged?_cases depth deferred
  · rw [hnone, hfits]
    rfl
  · rw [htagged, htags.fits_eq, decide_eq_true hdepth, Bool.true_and, hc.fits_eq]
    exact hcontent hdepth hc deferred'

theorem readWithin?_of_tags_none (h : j.Tags kind c)
    (hread : ∀ depth deferred, readContent? fuel kind ⟨depth, deferred, c⟩ = none) :
    readWithin? (fuel + 1) ⟨depth, deferred, j⟩ = none := by
  rw [readWithin?_succ]
  obtain ⟨hnone, -⟩ | ⟨deferred', -, htagged⟩ := h.tagged?_cases depth deferred
  · rw [hnone]
    rfl
  · rw [htagged]
    exact hread (depth - 1) deferred'

theorem readWithin?_of_lacksContent (h : j.LacksContent kind) :
    readWithin? fuel ⟨depth, deferred, j⟩ = none := by
  cases fuel with
  | zero => rfl
  | succ fuel =>
    rw [readWithin?_succ]
    obtain h | h := h depth deferred <;> rw [h] <;> rfl

theorem readContent?_map (x y : Json) (fuel depth : Nat) (deferred : Bool) :
    readContent? fuel "Map" ⟨depth, deferred, .array [x, y]⟩ =
      if depth = 0 then none
      else (do
        return map (← readWithin? fuel ⟨depth - 1, deferred, x⟩)
          (← readWithin? fuel ⟨depth - 1, deferred, y⟩)) := by
  cases depth <;> rfl

theorem readContent?_product (xs : List Json) (fuel depth : Nat) (deferred : Bool) :
    readContent? fuel "Product" ⟨depth, deferred, .array xs⟩ =
      if depth = 0 then none
      else (do
        return product (← (xs.map fun x => (⟨depth - 1, deferred, x⟩ : Reading)).mapM
          (readWithin? fuel))) := by
  cases depth <;> rfl

theorem readContent?_map_of_length {xs : List Json} (h : xs.length ≠ 2) (fuel depth : Nat)
    (deferred : Bool) : readContent? fuel "Map" ⟨depth, deferred, .array xs⟩ = none := by
  cases depth with
  | zero => rfl
  | succ depth =>
    match xs, h with
    | [], _ => rfl
    | [x], _ => rfl
    | [x, y], h => exact absurd rfl h
    | x :: y :: z :: zs, _ => rfl

mutual

theorem readWithin?_rearranged : (d : DomainDescriptor) → ∀ {j : Json} {fuel depth : Nat},
    Rearranged d.toJson j → depth < fuel → ∀ deferred,
    readWithin? fuel ⟨depth, deferred, j⟩ = if d.toJson.fits depth then some d else none
  | all a, _, _ + 1, _, h, _, _ => by
    refine readWithin?_of_content h fun _ hc deferred => ?_
    change (Atom.read? _ >>= fun a => some (all a)) = _
    rw [Atom.read?_rearranged hc]
    rfl
  | bounded a, _, _ + 1, _, h, _, _ => by
    refine readWithin?_of_content h fun _ hc deferred => ?_
    change (Atom.read? _ >>= fun a => some (bounded a)) = _
    rw [Atom.read?_rearranged hc]
    rfl
  | vector d, _, fuel + 1, _, h, hfuel, _ => by
    refine readWithin?_of_content h fun hdepth hc deferred => ?_
    change (readWithin? fuel _ >>= fun d => some (vector d)) = _
    rw [readWithin?_rearranged d hc (by omega)]
    split <;> rfl
  | sized d, _, fuel + 1, _, h, hfuel, _ => by
    refine readWithin?_of_content h fun hdepth hc deferred => ?_
    change (readWithin? fuel _ >>= fun d => some (sized d)) = _
    rw [readWithin?_rearranged d hc (by omega)]
    split <;> rfl
  | map k v, _, _ + 1, depth, h, hfuel, _ => by
    refine readWithin?_of_content h fun hdepth hc deferred => ?_
    cases hc with
    | array hc =>
      obtain _ | ⟨hk, _ | ⟨hv, ⟨⟩⟩⟩ := hc
      rw [readContent?_map, readWithin?_rearranged k hk (by omega),
        readWithin?_rearranged v hv (by omega), Json.fits]
      by_cases hzero : depth - 1 = 0
      · simp [hzero]
      · rw [if_neg hzero, decide_eq_true hzero]
        cases hkfits : k.toJson.fits (depth - 1 - 1) <;>
          cases hvfits : v.toJson.fits (depth - 1 - 1) <;> simp [Json.fitsElements, hkfits, hvfits]
  | product ds, _, _ + 1, depth, h, hfuel, _ => by
    refine readWithin?_of_content h fun hdepth hc deferred => ?_
    cases hc with
    | array hc =>
      rw [readContent?_product, mapM_readWithin?_rearranged ds hc (by omega), Json.fits]
      by_cases hzero : depth - 1 = 0
      · simp [hzero]
      · rw [if_neg hzero, decide_eq_true hzero, Bool.true_and]
        split <;> rfl

theorem mapM_readWithin?_rearranged : (ds : List DomainDescriptor) → ∀ {xs : List Json}
    {fuel depth : Nat}, RearrangedElements (toJsonParts ds) xs → depth < fuel → ∀ deferred,
    (xs.map fun x => (⟨depth, deferred, x⟩ : Reading)).mapM (readWithin? fuel) =
      if Json.fitsElements depth (toJsonParts ds) then some ds else none
  | [], _, _, _, .nil, _, _ => rfl
  | d :: ds, _, fuel, depth, .cons h hs, hfuel, deferred => by
    rw [List.map_cons, List.mapM_cons, readWithin?_rearranged d h hfuel,
      mapM_readWithin?_rearranged ds hs hfuel]
    change _ = if d.toJson.fits depth && Json.fitsElements depth (toJsonParts ds) then _ else _
    cases d.toJson.fits depth <;> cases Json.fitsElements depth (toJsonParts ds) <;> rfl

end

theorem readWithin?_damaged_of_content {j' : Json} (h : Rearranged (.tagged kind (some c)) j)
    (hd : Damaged j j') (hcontent : ∀ {c' c''}, Rearranged c c' → Json.DamagedContent kind c' c'' →
      ∀ fuel depth deferred, readContent? fuel kind ⟨depth, deferred, c''⟩ = none) (fuel depth : Nat)
    (deferred : Bool) : readWithin? fuel ⟨depth, deferred, j'⟩ = none := by
  obtain ⟨c', hc, htags⟩ := h.tags
  obtain hlacks | ⟨c'', htags', hdamaged⟩ := htags.damaged hd
  · exact readWithin?_of_lacksContent hlacks
  · cases fuel with
    | zero => rfl
    | succ fuel => exact readWithin?_of_tags_none htags' (hcontent hc hdamaged fuel)

mutual

theorem readWithin?_damaged : (d : DomainDescriptor) → ∀ {j j' : Json}, Rearranged d.toJson j →
    Damaged j j' → ∀ fuel depth deferred, readWithin? fuel ⟨depth, deferred, j'⟩ = none
  | all a, _, _, h, hd | bounded a, _, _, h, hd => by
    refine readWithin?_damaged_of_content h hd fun hc hdamaged => ?_
    obtain hdamaged | ⟨hkind, -⟩ := hdamaged
    · exact absurd hdamaged (Atom.not_damaged hc)
    · exact absurd hkind (by decide)
  | vector d, _, _, h, hd => by
    refine readWithin?_damaged_of_content h hd fun hc hdamaged fuel depth deferred => ?_
    obtain hdamaged | ⟨hkind, -⟩ := hdamaged
    · change (readWithin? fuel _ >>= fun d => some (vector d)) = none
      rw [readWithin?_damaged d hc hdamaged]
      rfl
    · exact absurd hkind (by decide)
  | sized d, _, _, h, hd => by
    refine readWithin?_damaged_of_content h hd fun hc hdamaged fuel depth deferred => ?_
    obtain hdamaged | ⟨hkind, -⟩ := hdamaged
    · change (readWithin? fuel _ >>= fun d => some (sized d)) = none
      rw [readWithin?_damaged d hc hdamaged]
      rfl
    · exact absurd hkind (by decide)
  | map k v, _, _, h, hd => by
    refine readWithin?_damaged_of_content h hd fun hc hdamaged fuel depth deferred => ?_
    obtain hdamaged | ⟨-, ys, rfl, hlen⟩ := hdamaged
    · cases hc with
      | array hc =>
        obtain ⟨before, x, y, after, hxs, rfl, hd⟩ := hdamaged.of_array
        obtain _ | ⟨hk, _ | ⟨hv, ⟨⟩⟩⟩ := hc
        obtain ⟨rfl, rfl, rfl⟩ | ⟨rfl, rfl, rfl⟩ := append_cons_eq_pair hxs.symm
        · change readContent? fuel "Map" ⟨depth, deferred, .array [y, _]⟩ = none
          rw [readContent?_map, readWithin?_damaged k hk hd]
          split <;> rfl
        · change readContent? fuel "Map" ⟨depth, deferred, .array [_, y]⟩ = none
          rw [readContent?_map, readWithin?_damaged v hv hd]
          split
          · rfl
          · cases readWithin? fuel _ <;> rfl
    · exact readContent?_map_of_length hlen fuel depth deferred
  | product ds, _, _, h, hd => by
    refine readWithin?_damaged_of_content h hd fun hc hdamaged fuel depth deferred => ?_
    obtain hdamaged | ⟨hkind, -⟩ := hdamaged
    · cases hc with
      | array hc =>
        obtain ⟨before, x, y, after, rfl, rfl, hd⟩ := hdamaged.of_array
        rw [readContent?_product]
        split
        · rfl
        · rw [Reading.mapM_eq_none_of_mem (List.mem_map_of_mem
            (List.mem_append_right before List.mem_cons_self))
            (readWithin?_damaged_part ds hc hd fuel _ deferred)]
          rfl
    · exact absurd hkind (by decide)

theorem readWithin?_damaged_part : (ds : List DomainDescriptor) → ∀ {before after : List Json}
    {x y : Json}, RearrangedElements (toJsonParts ds) (before ++ x :: after) → Damaged x y →
    ∀ fuel depth deferred, readWithin? fuel ⟨depth, deferred, y⟩ = none
  | [], before, _, _, _, h, _ => by cases before <;> cases h
  | d :: _, [], _, _, _, .cons h _, hd => readWithin?_damaged d h hd
  | _ :: ds, _ :: _, _, _, _, .cons _ hs, hd => readWithin?_damaged_part ds hs hd

end

mutual

theorem legible_toJson : (d : DomainDescriptor) → d.toJson.Legible
  | all _ | bounded _ => ⟨trivial, trivial, trivial⟩
  | vector d | sized d => ⟨trivial, legible_toJson d, trivial⟩
  | map k v => ⟨trivial, ⟨legible_toJson k, legible_toJson v, trivial⟩, trivial⟩
  | product ds => ⟨trivial, legible_toJsonParts ds, trivial⟩

theorem legible_toJsonParts : (ds : List DomainDescriptor) → Json.LegibleElements (toJsonParts ds)
  | [] => trivial
  | d :: ds => ⟨legible_toJson d, legible_toJsonParts ds⟩

end

theorem faithful : Faithful toJson read? where
  legible := legible_toJson
  read_rearranged {d _} h depth := readWithin?_rearranged d h (Nat.lt_succ_self depth)
  read_damaged {d _ _} h hd depth := readWithin?_damaged d h hd (depth + 1) depth

end DomainDescriptor

/-! ### Metrics and measures -/

section Parts

variable {α : Type} {plain : List α} {withAtom : List (Atom → α)} {parts : α → String × Option Atom}

/-- The lists tell every descriptor by its kind, and whether it has an atom. -/
structure Distinguishes (plain : List α) (withAtom : List (Atom → α))
    (parts : α → String × Option Atom) : Prop where
  find_plain : ∀ d, (parts d).2 = none →
    plain.find? (fun x => (parts x).1 = (parts d).1) = some d
  find_none : ∀ d a, (parts d).2 = some a →
    plain.find? (fun x => (parts x).1 = (parts d).1) = none
  find_withAtom : ∀ d a, (parts d).2 = some a →
    (withAtom.map (· a)).find? (fun x => (parts x).1 = (parts d).1) = some d
  ne_map : ∀ d, (parts d).1 ≠ "Map"

theorem Distinguishes.read_of_lacksContent (h : Distinguishes plain withAtom parts) {d : α}
    {a : Atom} (ha : (parts d).2 = some a) {j : Json} (hj : j.LacksContent (parts d).1)
    (depth : Nat) (deferred : Bool) : readParts? plain withAtom parts ⟨depth, deferred, j⟩ = none := by
  unfold readParts?
  obtain hj | hj := hj depth deferred
  · rw [hj]
    rfl
  · rw [hj, Option.bind_eq_bind, Option.bind_some]
    dsimp only
    rw [h.find_none d a ha]
    rfl

theorem Distinguishes.faithful (h : Distinguishes plain withAtom parts) :
    Faithful (fun d => jsonOfParts (parts d)) (readParts? plain withAtom parts) where
  legible d := by
    unfold jsonOfParts
    cases (parts d).2 with
    | none => exact ⟨trivial, trivial⟩
    | some a => exact ⟨trivial, trivial, trivial⟩
  read_rearranged {d j} hj depth deferred := by
    rw [← hj.fits_eq]
    unfold jsonOfParts at hj
    cases ha : (parts d).2 with
    | none =>
      rw [ha] at hj
      rw [hj.eq_of_tagged_none]
      cases depth with
      | zero => rfl
      | succ depth =>
        have htagged : (⟨depth + 1, deferred, .tagged (parts d).1 none⟩ : Reading).tagged? =
            some ((parts d).1, none) := rfl
        unfold readParts?
        rw [htagged, Option.bind_eq_bind, Option.bind_some]
        dsimp only
        rw [h.find_plain d ha]
        rfl
    | some a =>
      rw [ha] at hj
      obtain ⟨c, hc, htags⟩ := Rearranged.tags hj
      unfold readParts?
      obtain ⟨hnone, hfits⟩ | ⟨deferred', hdepth, htagged⟩ := htags.tagged?_cases depth deferred
      · rw [hnone, hfits]
        rfl
      · rw [htagged, htags.fits_eq, decide_eq_true hdepth, hc.fits_eq]
        rw [Option.bind_eq_bind, Option.bind_some]
        dsimp only
        rw [h.find_none d a ha]
        change (Atom.read? ⟨depth - 1, deferred', c⟩ >>= fun a =>
          (withAtom.map (· a)).find? fun x => (parts x).1 = (parts d).1) = some d
        rw [Atom.read?_rearranged hc]
        exact h.find_withAtom d a ha
  read_damaged {d j j'} hj hd depth deferred := by
    unfold jsonOfParts at hj
    cases ha : (parts d).2 with
    | none =>
      rw [ha] at hj
      rw [hj.eq_of_tagged_none] at hd
      unfold readParts?
      rw [hd.tagged?_eq_none]
      rfl
    | some a =>
      rw [ha] at hj
      obtain ⟨c, hc, htags⟩ := Rearranged.tags hj
      obtain hlacks | ⟨c', -, hdamaged | ⟨hkind, -⟩⟩ := htags.damaged hd
      · exact h.read_of_lacksContent ha hlacks depth deferred
      · exact absurd hdamaged (Atom.not_damaged hc)
      · exact absurd hkind (h.ne_map d)

end Parts

theorem MetricDescriptor.faithful : Faithful toJson read? := by
  have h : Distinguishes [symmetric, insertDelete, changeOne, hamming, discrete]
      [absolute, l1, l2] parts := by
    constructor
    · intro d hd
      cases d <;> first | rfl | cases hd
    · intro d a hd
      cases d <;> first | rfl | cases hd
    · intro d a hd
      cases d <;> cases hd <;> rfl
    · intro d
      cases d <;> simp [parts]
  exact h.faithful

theorem MeasureDescriptor.faithful : Faithful toJson read? := by
  have h : Distinguishes [] [maxDivergence, smoothedMaxDivergence, fixedSmoothedMaxDivergence,
      zeroConcentratedDivergence] parts := by
    constructor
    · intro d hd
      cases d <;> cases hd
    · intro d a hd
      rfl
    · intro d a hd
      cases d <;> cases hd <;> rfl
    · intro d
      cases d <;> simp [parts]
  exact h.faithful

/-! ### Steps -/

section Record

variable {A B C D S : Type} {toA : A → Json} {toB : B → Json} {toC : C → Json} {toD : D → Json}
  {readA : Reading → Option A} {readB : Reading → Option B} {readC : Reading → Option C}
  {readD : Reading → Option D} {a : String} {b : String} {c : String} {d : String}

/-- A record of four fields is faithful if its fields are. -/
theorem Faithful.record (hA : Faithful toA readA) (hB : Faithful toB readB)
    (hC : Faithful toC readC) (hD : Faithful toD readD) (hn : [a, b, c, d].Nodup)
    (hkind : "kind" ∉ [a, b, c, d]) {make : A → B → C → D → S} {fieldA : S → A} {fieldB : S → B}
    {fieldC : S → C} {fieldD : S → D}
    (hmake : ∀ s, make (fieldA s) (fieldB s) (fieldC s) (fieldD s) = s) :
    Faithful
      (fun s => .object [(a, toA (fieldA s)), (b, toB (fieldB s)), (c, toC (fieldC s)),
        (d, toD (fieldD s))])
      (fun r => do
        match ← r.record? [a, b, c, d] with
        | [x, y, z, w] => return make (← readA x) (← readB y) (← readC z) (← readD w)
        | _ => none) where
  legible s := ⟨hA.legible _, hB.legible _, hC.legible _, hD.legible _, trivial⟩
  read_rearranged {s j} hj depth deferred := by
    obtain ⟨ns, hns, hmembers⟩ := hj.hasMembers
    obtain _ | ⟨_, ha, _ | ⟨_, hb, _ | ⟨_, hc, _ | ⟨_, hd, ⟨⟩⟩⟩⟩⟩ := hns
    have hrecord := hmembers.record?_eq hn depth deferred
    change (⟨depth, deferred, j⟩ : Reading).record? [a, b, c, d] = _ at hrecord
    rw [hrecord, Json.fits]
    by_cases hzero : depth = 0
    · simp [hzero]
    · rw [if_neg hzero, decide_eq_true hzero]
      change (readA ⟨depth - 1, deferred, _⟩ >>= fun x => readB ⟨depth - 1, deferred, _⟩ >>= fun y =>
        readC ⟨depth - 1, deferred, _⟩ >>= fun z => readD ⟨depth - 1, deferred, _⟩ >>= fun w =>
        some (make x y z w)) = _
      rw [hA.read_rearranged ha, hB.read_rearranged hb, hC.read_rearranged hc,
        hD.read_rearranged hd]
      cases hfitsA : (toA (fieldA s)).fits (depth - 1) <;>
        cases hfitsB : (toB (fieldB s)).fits (depth - 1) <;>
        cases hfitsC : (toC (fieldC s)).fits (depth - 1) <;>
        cases hfitsD : (toD (fieldD s)).fits (depth - 1) <;>
        simp [Json.fitsMembers, hfitsA, hfitsB, hfitsC, hfitsD, hmake]
  read_damaged {s j j'} hj hdamaged depth deferred := by
    obtain ⟨ns, hns, hmembers⟩ := hj.hasMembers
    obtain _ | ⟨_, ha, _ | ⟨_, hb, _ | ⟨_, hc, _ | ⟨_, hd, ⟨⟩⟩⟩⟩⟩ := hns
    obtain hnone | ⟨before, name, x, y, after, hns, hxy, hmembers'⟩ :=
      hmembers.damaged hn hkind hdamaged
    · have hrecord := hnone depth deferred
      change (⟨depth, deferred, j'⟩ : Reading).record? [a, b, c, d] = none at hrecord
      rw [hrecord]
      rfl
    · have hnames : (before ++ (name, y) :: after).map Prod.fst = [a, b, c, d] := by
        rw [List.map_append, List.map_cons]
        have hnames := congrArg (List.map Prod.fst) hns
        rw [List.map_append, List.map_cons] at hnames
        exact hnames.symm
      have hrecord := hmembers'.record?_eq (hnames ▸ hn) depth deferred
      rw [hnames] at hrecord
      rw [hrecord]
      by_cases hzero : depth = 0
      · simp [hzero]
      · rw [if_neg hzero]
        obtain _ | ⟨_, _ | ⟨_, _ | ⟨_, _ | ⟨_, before⟩⟩⟩⟩ := before
        · cases hns
          simp [hA.read_damaged ha hxy]
        · cases hns
          simp [hB.read_damaged hb hxy]
        · cases hns
          simp [hC.read_damaged hc hxy]
        · cases hns
          simp [hD.read_damaged hd hxy]
        · simp at hns

end Record

theorem TransformationDescriptor.faithful : Faithful toJson read? :=
  DomainDescriptor.faithful.record DomainDescriptor.faithful MetricDescriptor.faithful
    MetricDescriptor.faithful (by decide) (by decide) fun _ => rfl

theorem MeasurementDescriptor.faithful : Faithful toJson read? :=
  DomainDescriptor.faithful.record DomainDescriptor.faithful MetricDescriptor.faithful
    MeasureDescriptor.faithful (by decide) (by decide) fun _ => rfl

/-! ### Texts -/

/-- The descriptor is read from the text of any arrangement that does not nest too deep, nothing is
    from one that does, and nothing after any damage. -/
structure RoundTrips {α : Type} (toJson : α → Json) (read? : Reading → Option α) (d : α) : Prop where
  rearranged : ∀ j, Rearranged (toJson d) j → (Reading.ofText? j.text).bind read? =
    if (toJson d).fits Json.depthLimit then some d else none
  damaged : ∀ j j', Rearranged (toJson d) j → Damaged j j' →
    (Reading.ofText? j'.text).bind read? = none

theorem Faithful.roundTrips {α : Type} {toJson : α → Json} {read? : Reading → Option α}
    (h : Faithful toJson read?) (d : α) : RoundTrips toJson read? d where
  rearranged j hj := by
    unfold Reading.ofText?
    rw [Json.parse?_text (hj.legible (h.legible d))]
    exact h.read_rearranged hj Json.depthLimit false
  damaged j j' hj hd := by
    unfold Reading.ofText?
    rw [Json.parse?_text (hd.legible (hj.legible (h.legible d)))]
    exact h.read_damaged hj hd Json.depthLimit false

/-- Every descriptor round-trips through its text unless it nests too deep, and no damaged text is
    taken for that of another. -/
theorem descriptor_roundTrips :
    (∀ d, RoundTrips DomainDescriptor.toJson DomainDescriptor.read? d) ∧
    (∀ d, RoundTrips MetricDescriptor.toJson MetricDescriptor.read? d) ∧
    (∀ d, RoundTrips MeasureDescriptor.toJson MeasureDescriptor.read? d) ∧
    (∀ d, RoundTrips TransformationDescriptor.toJson TransformationDescriptor.read? d) ∧
    ∀ d, RoundTrips MeasurementDescriptor.toJson MeasurementDescriptor.read? d :=
  ⟨DomainDescriptor.faithful.roundTrips, MetricDescriptor.faithful.roundTrips,
    MeasureDescriptor.faithful.roundTrips, TransformationDescriptor.faithful.roundTrips,
    MeasurementDescriptor.faithful.roundTrips⟩

/-- A map from strings to integers, with its members backwards and any parts. -/
def mapDocument (parts : List Json) : Json := .object [("of", .array parts), ("kind", .string "Map")]

def keyDocument : Json := .object [("of", .string "string"), ("kind", .string "All")]

def entryDocument : Json := .object [("kind", .string "All"), ("of", .string "i32")]

theorem descriptor_roundTrips_map :
    (Reading.ofText? (mapDocument [keyDocument, entryDocument]).text).bind DomainDescriptor.read? =
      some (.map (.all .string) (.all (.num (.int .i32)))) ∧
    (Reading.ofText? (mapDocument [keyDocument, entryDocument, entryDocument]).text).bind
      DomainDescriptor.read? = none := by
  obtain ⟨hdomain, -⟩ := descriptor_roundTrips
  have hkey : Rearranged (DomainDescriptor.all .string).toJson keyDocument :=
    .object (Json.RearrangedMembers.refl _) (List.Perm.swap _ _ _)
  have hentry : Rearranged (DomainDescriptor.all (.num (.int .i32))).toJson entryDocument :=
    Rearranged.refl _
  have hmap : Rearranged
      (DomainDescriptor.map (.all .string) (.all (.num (.int .i32)))).toJson
      (mapDocument [keyDocument, entryDocument]) :=
    .object (.cons _ (.string "Map") (.cons _ (.array (.cons hkey (.cons hentry .nil))) .nil))
      (List.Perm.swap _ _ _)
  have hdamaged : Damaged (mapDocument [keyDocument, entryDocument])
      (mapDocument [keyDocument, entryDocument, entryDocument]) :=
    .resized [] [("kind", .string "Map")] List.mem_cons_self (by decide)
      ⟨⟨trivial, trivial, trivial⟩, ⟨trivial, trivial, trivial⟩, ⟨trivial, trivial, trivial⟩, trivial⟩
  exact ⟨(hdomain _).rearranged _ hmap, (hdomain _).damaged _ _ hmap hdamaged⟩

/-- Vectors of vectors, so many levels deep. -/
def nestedVectors : Nat → DomainDescriptor
  | 0 => .all (.num (.int .i32))
  | n + 1 => .vector (nestedVectors n)

theorem fits_nestedVectors (n depth : Nat) :
    (nestedVectors n).toJson.fits depth = decide (n < depth) := by
  induction n generalizing depth with
  | zero =>
    have htags : Tags (nestedVectors 0).toJson "All" (.string "i32") := Or.inl rfl
    have hatom : (Json.string "i32").fits (depth - 1) = true := rfl
    rw [htags.fits_eq, hatom, Bool.and_true]
    exact decide_eq_decide.mpr Nat.pos_iff_ne_zero.symm
  | succ n ih =>
    have htags : Tags (nestedVectors (n + 1)).toJson "Vector" (nestedVectors n).toJson := Or.inl rfl
    rw [htags.fits_eq, ih, ← Bool.decide_and]
    exact decide_eq_decide.mpr (by omega)

/-- At 126 levels the innermost domain is the last thing that a reader opens. -/
theorem nestedVectors_not_read :
    (Reading.ofText? (nestedVectors 126).toJson.text).bind DomainDescriptor.read? =
      some (nestedVectors 126) ∧
    (Reading.ofText? (nestedVectors 127).toJson.text).bind DomainDescriptor.read? = none := by
  constructor
  · rw [(DomainDescriptor.faithful.roundTrips _).rearranged _ (Rearranged.refl _),
      fits_nestedVectors]
    rfl
  · rw [(DomainDescriptor.faithful.roundTrips _).rearranged _ (Rearranged.refl _),
      fits_nestedVectors]
    rfl

end DifferentialPrivacy
