import DifferentialPrivacy.Proofs.Accounting.ComposedRelease
import DifferentialPrivacy.Settings.Basic
import Mathlib.Data.List.DropRight

set_option autoImplicit false

/-!
# Lists of capabilities

What a list names is read off its entries, the pieces between the commas without the blanks around
them. A list is accepted when every entry is empty or a name, and then it is the set of the names
among its entries, in whatever order and however often they stand. Otherwise its first entry of
another kind is the error.
-/

namespace DifferentialPrivacy

namespace Text

variable {sep : Char} {text core : List Char}

theorem pieces_eq_splitOn (sep : Char) (text : List Char) : pieces sep text = text.splitOn sep := by
  induction text with
  | nil => rfl
  | cons c cs ih =>
    rw [List.splitOn_cons_eq_if_modifyHead, pieces, ih]
    by_cases hc : c = sep
    · rw [if_pos hc, if_pos (beq_iff_eq.mpr hc)]
    · rw [if_neg hc, if_neg (mt beq_iff_eq.mp hc)]
      obtain ⟨piece, rest, hpieces⟩ := List.exists_cons_of_ne_nil (List.splitOn_ne_nil sep cs)
      rw [hpieces, List.modifyHead_cons]

/-- The core of a text: what remains of it once the blanks before and after it are gone. -/
structure Trims (text core : List Char) : Prop where
  around : ∃ left right, text = left ++ core ++ right ∧ ∀ c ∈ left ++ right, isBlank c = true
  head : ∀ h : core ≠ [], ¬isBlank (core.head h) = true
  last : ∀ h : core ≠ [], ¬isBlank (core.getLast h) = true

theorem trim_eq_rdropWhile (text : List Char) :
    trim text = (text.dropWhile isBlank).rdropWhile isBlank :=
  rfl

theorem trims_trim (text : List Char) : Trims text (trim text) := by
  rw [trim_eq_rdropWhile]
  refine ⟨⟨text.takeWhile isBlank, (text.dropWhile isBlank).rtakeWhile isBlank, ?_, ?_⟩, ?_, ?_⟩
  · rw [List.append_assoc, List.rdropWhile_append_rtakeWhile, List.takeWhile_append_dropWhile]
  · intro c hc
    rcases List.mem_append.mp hc with hc | hc
    · exact List.mem_takeWhile_imp hc
    · exact List.mem_rtakeWhile_imp hc
  · intro h
    -- what is dropped at the end leaves the first character in its place
    have hstart := List.rdropWhile_prefix isBlank (text.dropWhile isBlank)
    rw [List.IsPrefix.head hstart h]
    exact Bool.eq_false_iff.mp (List.head_dropWhile_not isBlank (hstart.ne_nil h))
  · exact List.rdropWhile_last_not isBlank _

theorem Trims.eq_trim (h : Trims text core) : core = trim text := by
  obtain ⟨⟨left, right, rfl, hblank⟩, hhead, hlast⟩ := h
  obtain ⟨hleft, hright⟩ := List.forall_mem_append.mp hblank
  rw [trim_eq_rdropWhile, List.append_assoc, List.dropWhile_append_of_pos hleft]
  by_cases hcore : core = []
  · rw [hcore, List.nil_append, List.dropWhile_eq_nil_iff.mpr hright, List.rdropWhile_nil]
  · have hstart : (core ++ right).dropWhile isBlank = core ++ right := by
      rw [List.dropWhile_eq_self_iff]
      intro hlength
      rw [← List.head_eq_getElem (List.append_ne_nil_of_left_ne_nil hcore right),
        List.head_append_of_ne_nil hcore]
      exact hhead hcore
    have hend : (core ++ right).rdropWhile isBlank = core.rdropWhile isBlank := by
      rw [List.rdropWhile, List.reverse_append,
        List.dropWhile_append_of_pos fun c hc => hright c (List.mem_reverse.mp hc)]
      rfl
    rw [hstart, hend, List.rdropWhile_eq_self_iff.mpr hlast]

theorem trims_iff : Trims text core ↔ trim text = core :=
  ⟨fun h => h.eq_trim.symm, fun h => h ▸ trims_trim text⟩

end Text

namespace Capabilities

variable {s t : Capabilities} {c d : Capability} {text other : List Char}

theorem mem_insert_iff : c ∈ s.insert d ↔ c = d ∨ c ∈ s := by
  cases c <;> cases d <;> simp [insert, set, Membership.mem, contains]

theorem not_mem_empty (c : Capability) : c ∉ empty := by
  cases c <;> exact Bool.false_ne_true

theorem mem_ofList_iff {cs : List Capability} : c ∈ ofList cs ↔ c ∈ cs := by
  have hfold : ∀ s : Capabilities, c ∈ cs.foldl insert s ↔ c ∈ cs ∨ c ∈ s := by
    induction cs with
    | nil => exact fun s => ⟨Or.inr, fun h => h.resolve_left List.not_mem_nil⟩
    | cons d cs ih =>
      intro s
      rw [List.foldl_cons, ih, mem_insert_iff, List.mem_cons, or_left_comm, or_assoc]
  rw [ofList, hfold, or_iff_left (not_mem_empty c)]

theorem eq_iff_mem : s = t ↔ ∀ c, c ∈ s ↔ c ∈ t := by
  refine ⟨fun h c => h ▸ Iff.rfl, fun h => ?_⟩
  have hcontrib : s.contrib = t.contrib := Bool.eq_iff_iff.mpr (h .contrib)
  have hfloatingPoint : s.floatingPoint = t.floatingPoint := Bool.eq_iff_iff.mpr (h .floatingPoint)
  have hhonest : s.honestButCurious = t.honestButCurious :=
    Bool.eq_iff_iff.mpr (h .honestButCurious)
  cases s
  cases t
  exact congr (congr (congrArg mk hcontrib) hfloatingPoint) hhonest

end Capabilities

namespace Capability

variable {c : Capability} {piece : List Char} {fault : SettingsFault}

theorem ofName?_eq_some_iff {name : String} : ofName? name = some c ↔ c.name = name := by
  refine ⟨fun h => ?_, fun h => h ▸ ofName?_name c⟩
  have hname : decide (c.name = name) = true :=
    List.find?_some (p := fun c : Capability => decide (c.name = name)) h
  exact of_decide_eq_true hname

theorem name_injective : Function.Injective name := fun c d h =>
  Option.some.inj ((ofName?_name c).symm.trans (h ▸ ofName?_name d))

/-- The name of a capability as text. -/
def spelling (c : Capability) : List Char := c.name.toList

theorem spelling_injective : Function.Injective spelling := fun _ _ h =>
  name_injective (String.toList_inj.mp h)

theorem spelling_ne_nil (c : Capability) : c.spelling ≠ [] := by
  cases c <;> decide +kernel

theorem name_eq_ofList_iff {text : List Char} :
    c.name = String.ofList text ↔ text = c.spelling := by
  rw [← String.toList_inj, String.toList_ofList, eq_comm, spelling]

theorem parse_eq_ok_iff : parse piece = .ok c ↔ Text.trim piece = c.spelling := by
  rw [← name_eq_ofList_iff, ← ofName?_eq_some_iff, parse]
  cases ofName? (String.ofList (Text.trim piece)) with
  | none => simp
  | some d => simp

theorem parse_eq_error_iff : parse piece = .error fault ↔
    (∀ c : Capability, Text.trim piece ≠ c.spelling) ∧
      fault = .unknown (String.ofList (Text.trim piece)) := by
  have hnone : (∀ c : Capability, Text.trim piece ≠ c.spelling) ↔
      ofName? (String.ofList (Text.trim piece)) = none := by
    rw [Option.eq_none_iff_forall_ne_some]
    exact forall_congr' fun c => (ofName?_eq_some_iff.trans name_eq_ofList_iff).not.symm
  rw [hnone, parse]
  cases ofName? (String.ofList (Text.trim piece)) with
  | none => simp [eq_comm]
  | some d => simp

end Capability

namespace Capabilities

/-- The pieces of a text between its commas, without the blanks around them. -/
def entries (text : List Char) : List (List Char) := (text.splitOn ',').map Text.trim

theorem forall₂_trims_iff {text : List Char} {es : List (List Char)} :
    List.Forall₂ Text.Trims (text.splitOn ',') es ↔ es = entries text := by
  have htrims : Text.Trims = fun text core => Text.trim text = core :=
    funext₂ fun _ _ => propext Text.trims_iff
  rw [entries, eq_comm, ← List.forall₂_eq_eq_eq, List.forall₂_map_left_iff, htrims]

/-- What a list may hold between two commas: nothing, or the name of a capability. -/
def IsEntry (entry : List Char) : Prop := entry = [] ∨ ∃ c : Capability, entry = c.spelling

instance (entry : List Char) : Decidable (IsEntry entry) :=
  decidable_of_iff (entry = [] ∨ ∃ c ∈ Capability.all, entry = c.spelling)
    (or_congr_right (exists_congr fun c => and_iff_right c.mem_all))

/-- The pieces that `parseList` looks at. -/
def named (text : List Char) : List (List Char) :=
  (text.splitOn ',').filter fun piece => !(Text.trim piece).isEmpty

theorem parseList_eq (text : List Char) :
    parseList text = (named text).mapM Capability.parse >>= fun cs => .ok (ofList cs) := by
  rw [named, ← Text.pieces_eq_splitOn]
  rfl

theorem map_trim_named (text : List Char) :
    (named text).map Text.trim = (entries text).filter fun entry => !entry.isEmpty := by
  rw [entries, List.filter_map]
  rfl

theorem spelling_mem_named_iff {c : Capability} {text : List Char} :
    c.spelling ∈ (named text).map Text.trim ↔ c.spelling ∈ entries text := by
  rw [map_trim_named, List.mem_filter, and_iff_left]
  rw [List.isEmpty_eq_false_iff.mpr c.spelling_ne_nil]
  rfl

theorem mapM_parse_eq_ok_iff {pieces : List (List Char)} {cs : List Capability} :
    pieces.mapM Capability.parse = .ok cs ↔ pieces.map Text.trim = cs.map Capability.spelling := by
  rw [mapM_eq_ok_iff, ← List.forall₂_eq_eq_eq, List.forall₂_map_left_iff,
    List.forall₂_map_right_iff]
  simp only [Capability.parse_eq_ok_iff]

section

variable {s t : Capabilities} {text other : List Char} {fault : SettingsFault}

theorem parseList_eq_ok_iff_exists : parseList text = .ok s ↔
    ∃ cs : List Capability, (named text).map Text.trim = cs.map Capability.spelling ∧
      ofList cs = s := by
  rw [parseList_eq, bind_eq_ok_iff]
  simp only [mapM_parse_eq_ok_iff, Except.ok.injEq]

/-- The capabilities whose names stand among the entries. -/
theorem mem_of_parseList (h : parseList text = .ok s) (c : Capability) :
    c ∈ s ↔ c.spelling ∈ entries text := by
  obtain ⟨cs, hcs, rfl⟩ := parseList_eq_ok_iff_exists.mp h
  rw [mem_ofList_iff, ← spelling_mem_named_iff, hcs,
    List.mem_map_of_injective Capability.spelling_injective]

theorem exists_parseList_iff :
    (∃ s, parseList text = .ok s) ↔ ∀ entry ∈ entries text, IsEntry entry := by
  have hcs : (∃ s, parseList text = .ok s) ↔
      ∃ cs : List Capability, (named text).map Text.trim = cs.map Capability.spelling := by
    constructor
    · rintro ⟨s, hs⟩
      obtain ⟨cs, hcs, -⟩ := parseList_eq_ok_iff_exists.mp hs
      exact ⟨cs, hcs⟩
    · rintro ⟨cs, hcs⟩
      exact ⟨_, parseList_eq_ok_iff_exists.mpr ⟨cs, hcs, rfl⟩⟩
  have hspelled :
      (∃ cs : List Capability, (named text).map Text.trim = cs.map Capability.spelling) ↔
        ∀ entry ∈ (named text).map Text.trim, ∃ c : Capability, entry = c.spelling := by
    rw [← exists_forall₂_iff]
    refine exists_congr fun cs => ?_
    rw [← List.forall₂_eq_eq_eq, List.forall₂_map_right_iff]
  rw [hcs, hspelled, map_trim_named]
  refine forall_congr' fun entry => ?_
  rw [List.mem_filter, IsEntry, Bool.not_eq_true', List.isEmpty_eq_false_iff, and_imp]
  exact imp_congr_right fun _ => or_iff_not_imp_left.symm

theorem parseList_eq_ok_iff : parseList text = .ok s ↔
    (∀ entry ∈ entries text, IsEntry entry) ∧
      ∀ c : Capability, c ∈ s ↔ c.spelling ∈ entries text := by
  constructor
  · exact fun h => ⟨exists_parseList_iff.mp ⟨s, h⟩, mem_of_parseList h⟩
  · rintro ⟨hentries, hmem⟩
    obtain ⟨t, ht⟩ := exists_parseList_iff.mpr hentries
    rw [ht, eq_iff_mem.mpr fun c => (mem_of_parseList ht c).trans (hmem c).symm]

/-- The first entry of a list that is neither empty nor a name. -/
def FirstUnknown (text entry : List Char) : Prop :=
  ∃ before after, entries text = before ++ entry :: after ∧ (∀ e ∈ before, IsEntry e) ∧
    ¬IsEntry entry

theorem entries_or_firstUnknown (text : List Char) :
    (∀ entry ∈ entries text, IsEntry entry) ∨ ∃ entry, FirstUnknown text entry := by
  cases hfind : (entries text).find? fun entry => !decide (IsEntry entry) with
  | none =>
    refine Or.inl fun entry hentry => ?_
    have h := List.find?_eq_none.mp hfind entry hentry
    rwa [Bool.not_eq_true', Bool.not_eq_false, decide_eq_true_iff] at h
  | some entry =>
    obtain ⟨hentry, before, after, heq, hbefore⟩ := List.find?_eq_some_iff_append.mp hfind
    refine Or.inr ⟨entry, before, after, heq, fun e he => ?_, ?_⟩
    · have h := hbefore e he
      rwa [Bool.not_not, decide_eq_true_iff] at h
    · rwa [Bool.not_eq_true', decide_eq_false_iff_not] at hentry

theorem parseList_of_firstUnknown {entry : List Char} (h : FirstUnknown text entry) :
    parseList text = .error (.unknown (String.ofList entry)) := by
  obtain ⟨before, after, heq, hbefore, hentry⟩ := h
  obtain ⟨hempty, hunknown⟩ := not_or.mp hentry
  -- the pieces that the entries are cut from
  obtain ⟨left, rest, hsplit, rfl, hrest⟩ := List.map_eq_append_iff.mp heq
  obtain ⟨piece, right, rfl, rfl, -⟩ := List.map_eq_cons_iff.mp hrest
  have hpiece : Capability.parse piece = .error (.unknown (String.ofList (Text.trim piece))) :=
    Capability.parse_eq_error_iff.mpr ⟨fun c hc => hunknown ⟨c, hc⟩, rfl⟩
  have hfails : FailsFirst Capability.parse (named text)
      (.unknown (String.ofList (Text.trim piece))) := by
    refine ⟨left.filter fun p => !(Text.trim p).isEmpty, piece,
      right.filter fun p => !(Text.trim p).isEmpty, ?_, ?_, hpiece⟩
    · rw [named, hsplit, List.filter_append, List.filter_cons_of_pos]
      rw [List.isEmpty_eq_false_iff.mpr hempty]
      rfl
    · intro p hp
      obtain ⟨hp, hnonempty⟩ := List.mem_filter.mp hp
      rw [Bool.not_eq_true', List.isEmpty_eq_false_iff] at hnonempty
      obtain ⟨c, hc⟩ := (hbefore _ (List.mem_map_of_mem hp)).resolve_left hnonempty
      exact ⟨c, Capability.parse_eq_ok_iff.mpr hc⟩
  rw [parseList_eq, mapM_eq_error_iff.mpr hfails]
  rfl

theorem parseList_eq_error_iff : parseList text = .error fault ↔
    ∃ entry, FirstUnknown text entry ∧ fault = .unknown (String.ofList entry) := by
  constructor
  · intro h
    rcases entries_or_firstUnknown text with hentries | ⟨entry, hentry⟩
    · obtain ⟨s, hs⟩ := exists_parseList_iff.mpr hentries
      rw [hs] at h
      cases h
    · rw [parseList_of_firstUnknown hentry] at h
      exact ⟨entry, hentry, (Except.error.inj h).symm⟩
  · rintro ⟨entry, hentry, rfl⟩
    exact parseList_of_firstUnknown hentry

theorem entries_join (text other : List Char) :
    entries (text ++ ',' :: other) = entries text ++ entries other := by
  rw [entries, List.splitOn_append_cons_self, List.map_append]
  rfl

theorem parseList_join (hs : parseList text = .ok s) (ht : parseList other = .ok t) :
    ∃ u, parseList (text ++ ',' :: other) = .ok u ∧ ∀ c : Capability, c ∈ u ↔ c ∈ s ∨ c ∈ t := by
  obtain ⟨hs, hmem⟩ := parseList_eq_ok_iff.mp hs
  obtain ⟨ht, hmem'⟩ := parseList_eq_ok_iff.mp ht
  have hentries : ∀ entry ∈ entries (text ++ ',' :: other), IsEntry entry := by
    rw [entries_join]
    exact List.forall_mem_append.mpr ⟨hs, ht⟩
  obtain ⟨u, hu⟩ := exists_parseList_iff.mpr hentries
  refine ⟨u, hu, fun c => ?_⟩
  rw [mem_of_parseList hu, entries_join, List.mem_append, hmem, hmem']

end

/-- The entries of a list are what its commas separate, trimmed. It is accepted exactly when each of
    them is empty or a name, and holds the capabilities whose names stand among them; if it is
    refused, the error is its first other entry; and two accepted lists with a comma between them
    hold the capabilities of either. -/
theorem parseList_of_entries (text : List Char) :
    (∀ es, es = entries text ↔ List.Forall₂ Text.Trims (text.splitOn ',') es) ∧
    ((∃ s, parseList text = .ok s) ↔ ∀ entry ∈ entries text, IsEntry entry) ∧
    (∀ s, parseList text = .ok s → ∀ c : Capability, c ∈ s ↔ c.name.toList ∈ entries text) ∧
    (∀ fault, parseList text = .error fault ↔
      ∃ entry, FirstUnknown text entry ∧ fault = .unknown (String.ofList entry)) ∧
    ∀ other s t, parseList text = .ok s → parseList other = .ok t →
      ∃ u, parseList (text ++ ',' :: other) = .ok u ∧ ∀ c : Capability, c ∈ u ↔ c ∈ s ∨ c ∈ t :=
  ⟨fun _ => forall₂_trims_iff.symm, exists_parseList_iff, fun _ => mem_of_parseList,
    fun _ => parseList_eq_error_iff, fun _ _ _ => parseList_join⟩

/-- Blanks, an empty last piece and the order do not matter: here two capabilities are named, and a
    list with a third is joined to them. -/
theorem parseList_of_entries_blanks :
    parseList " contrib ,\u2003floating-point,".toList = .ok ⟨true, true, false⟩ ∧
    (∀ c : Capability, c ∈ (⟨true, true, false⟩ : Capabilities) ↔
      c.name.toList ∈ entries " contrib ,\u2003floating-point,".toList) ∧
    ∃ u, parseList " contrib ,\u2003floating-point,,honest-but-curious".toList = .ok u ∧
      ∀ c : Capability, c ∈ u := by
  have hlist : parseList " contrib ,\u2003floating-point,".toList = .ok ⟨true, true, false⟩ := by
    decide +kernel
  have hother : parseList "honest-but-curious".toList = .ok ⟨false, false, true⟩ := by
    decide +kernel
  obtain ⟨-, -, hmem, -, hjoin⟩ := parseList_of_entries " contrib ,\u2003floating-point,".toList
  obtain ⟨u, hu, hall⟩ := hjoin _ _ _ hlist hother
  refine ⟨hlist, hmem _ hlist, u, hu, fun c => (hall c).mpr ?_⟩
  cases c
  · exact Or.inl rfl
  · exact Or.inl rfl
  · exact Or.inr rfl

/-- A name inside another word is no name, and the word is shown without its blanks. -/
example : parseList "contrib, xcontrib ,foo".toList = .error (.unknown "xcontrib") := by
  decide +kernel

end Capabilities
end DifferentialPrivacy
