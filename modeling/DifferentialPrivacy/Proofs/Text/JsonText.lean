import DifferentialPrivacy.Text.Json

set_option autoImplicit false

/-!
# Documents and their text

A legible document is one that is not marked as unreadable anywhere and whose numbers are numbers.
Its text reads back as the document itself. The reader goes through the text from left to right, so
every part is read back from in front of whatever may follow it.
-/
namespace DifferentialPrivacy.Json

/-! ### Strings -/

def Prefix.ofChars (cs : List Char) : Prefix := ⟨some cs, none⟩

theorem hexNumber?_hexPair : ∀ n < 0x20, hexNumber? ('0' :: '0' :: hexPair n) = some n := by
  decide

theorem pushNumber_ofChars (cs : List Char) {c : Char} (h : c.toNat < 0x20) :
    (Prefix.ofChars cs).pushNumber c.toNat = .ofChars (c :: cs) := by
  have hhigh : isHighSurrogate c.toNat = false := by
    unfold isHighSurrogate
    simp only [Bool.and_eq_false_iff, decide_eq_false_iff_not]
    omega
  have hlow : isLowSurrogate c.toNat = false := by
    unfold isLowSurrogate
    simp only [Bool.and_eq_false_iff, decide_eq_false_iff_not]
    omega
  unfold Prefix.pushNumber
  rw [hhigh, hlow, Char.ofNat_toNat]
  rfl

/-- A character is read back from what stands for it inside quotes. -/
theorem stringBody?_escape (cs : List Char) (c : Char) (rest : List Char) :
    stringBody? (.ofChars cs) (escape c ++ rest) = stringBody? (.ofChars (c :: cs)) rest := by
  unfold escape
  split
  · rfl
  · rfl
  · rfl
  · rfl
  · rfl
  · rfl
  · rfl
  · rename_i hquote hbackslash _ _ _ _ _
    split
    · rename_i hc
      have hnumber := hexNumber?_hexPair _ hc
      unfold hexPair at hnumber ⊢
      change stringBody? (.ofChars cs) ('\\' :: 'u' :: '0' :: '0' :: (c.toNat / 16).digitChar ::
        (c.toNat % 16).digitChar :: rest) = _
      rw [stringBody?.eq_2, hnumber]
      change stringBody? ((Prefix.ofChars cs).pushNumber c.toNat) rest = _
      rw [pushNumber_ofChars cs hc]
    · rename_i hc
      change stringBody? (.ofChars cs) (c :: rest) = _
      rw [stringBody?.eq_4 _ _ _ hquote (fun _ _ _ _ _ h _ => hbackslash h)
        (fun _ _ h _ => hbackslash h), if_neg]
      · rfl
      · simp only [Bool.or_eq_true, decide_eq_true_eq, not_or]
        exact ⟨hc, hbackslash⟩

theorem stringBody?_flatMap_escape (read cs rest : List Char) :
    stringBody? (.ofChars read) (cs.flatMap escape ++ '"' :: rest) =
      some (some (String.ofList (read.reverse ++ cs)), rest) := by
  induction cs generalizing read with
  | nil =>
    rw [List.append_nil]
    rfl
  | cons c cs ih =>
    rw [List.flatMap_cons, List.append_assoc, stringBody?_escape, ih, List.reverse_cons,
      List.append_assoc]
    rfl

theorem stringBody?_quoted (s : String) (rest : List Char) :
    stringBody? .empty (s.toList.flatMap escape ++ '"' :: rest) = some (some s, rest) := by
  have h := stringBody?_flatMap_escape [] s.toList rest
  rw [List.reverse_nil, List.nil_append, String.ofList_toList] at h
  exact h

/-! ### Numbers -/

/-- The text is at an end, or goes on with what may follow a value inside an array or object. -/
def Ends (rest : List Char) : Prop := ∀ c, rest.head? = some c → c = ',' ∨ c = ']' ∨ c = '\x7d'

variable {cs rest after : List Char}

theorem Ends.dropWhile_isDigit (h : Ends rest) : rest.dropWhile Char.isDigit = rest := by
  cases rest with
  | nil => rfl
  | cons c rest => obtain rfl | rfl | rfl := h c rfl <;> rfl

theorem afterDigits?_append (hrest : Ends rest) (h : afterDigits? cs = some after) :
    afterDigits? (cs ++ rest) = some (after ++ rest) := by
  cases cs with
  | nil => cases h
  | cons c cs =>
    change (if c.isDigit then some (cs.dropWhile Char.isDigit) else none) = some after at h
    change (if c.isDigit then some ((cs ++ rest).dropWhile Char.isDigit) else none) = _
    split at h
    · rename_i hc
      cases h
      rw [if_pos hc, List.dropWhile_append]
      split
      · rename_i hempty
        rw [List.isEmpty_iff.mp hempty, hrest.dropWhile_isDigit]
        rfl
      · rfl
    · cases h

theorem afterWhole?_append (hrest : Ends rest) (h : afterWhole? cs = some after) :
    afterWhole? (cs ++ rest) = some (after ++ rest) := by
  unfold afterWhole? at h
  split at h
  · cases h
    rfl
  · rename_i hzero
    have hdigits := afterDigits?_append hrest h
    cases cs with
    | nil => cases h
    | cons c cs =>
      unfold afterWhole?
      split
      · rename_i heq
        cases heq
        exact absurd rfl (hzero cs)
      · exact hdigits

theorem afterFraction?_append (hrest : Ends rest) (h : afterFraction? cs = some after) :
    afterFraction? (cs ++ rest) = some (after ++ rest) := by
  unfold afterFraction? at h
  split at h
  · exact afterDigits?_append hrest h
  · rename_i hdot
    cases h
    unfold afterFraction?
    split
    · rename_i heq
      cases cs with
      | nil => obtain h | h | h := hrest '.' (congrArg List.head? heq) <;> cases h
      | cons c cs =>
        cases heq
        exact absurd rfl (hdot _)
    · rfl

theorem afterExponent?_append (hrest : Ends rest) (h : afterExponent? cs = some after) :
    afterExponent? (cs ++ rest) = some (after ++ rest) := by
  cases cs with
  | nil =>
    cases h
    cases rest with
    | nil => rfl
    | cons c rest => obtain rfl | rfl | rfl := hrest c rfl <;> rfl
  | cons c cs =>
    unfold afterExponent? at h
    rw [List.cons_append]
    unfold afterExponent?
    dsimp only at h ⊢
    split at h
    · rename_i hc
      rw [if_pos hc]
      cases cs with
      | nil => cases h
      | cons d cs =>
        split at h
        · rename_i heq
          cases heq
          exact afterDigits?_append hrest h
        · rename_i heq
          cases heq
          exact afterDigits?_append hrest h
        · rename_i hplus hminus
          split
          · rename_i heq
            cases heq
            exact absurd rfl (hplus cs)
          · rename_i heq
            cases heq
            exact absurd rfl (hminus cs)
          · exact afterDigits?_append hrest h
    · rename_i hc
      rw [if_neg hc]
      cases h
      rfl

theorem number?_eq_some_iff {j : Json} : number? cs = some (j, after) ↔
    ∃ a b, afterWhole? (if cs.head? = some '-' then cs.tail else cs) = some a ∧
      afterFraction? a = some b ∧ afterExponent? b = some after ∧
      j = if (Decimal.ofText (cs.take (cs.length - after.length))).overflows .binary64 then
          unreadable
        else number (String.ofList (cs.take (cs.length - after.length))) := by
  unfold number?
  simp only [Option.bind_eq_bind, Option.bind_eq_some_iff, Option.pure_def]
  constructor
  · rintro ⟨a, ha, b, hb, c, hc, h⟩
    split at h <;> rename_i hoverflow <;> cases h
    · exact ⟨a, b, ha, hb, hc, (if_pos hoverflow).symm⟩
    · exact ⟨a, b, ha, hb, hc, (if_neg hoverflow).symm⟩
  · rintro ⟨a, b, ha, hb, hc, rfl⟩
    refine ⟨a, ha, b, hb, after, hc, ?_⟩
    split <;> rfl

theorem number?_append (hrest : Ends rest) {j : Json} (h : number? cs = some (j, [])) :
    number? (cs ++ rest) = some (j, rest) := by
  obtain ⟨a, b, ha, hb, hc, hj⟩ := number?_eq_some_iff.mp h
  refine number?_eq_some_iff.mpr ⟨a ++ rest, b ++ rest, ?_, afterFraction?_append hrest hb,
    afterExponent?_append hrest hc, ?_⟩
  · cases cs with
    | nil => cases ha
    | cons c cs =>
      rw [List.cons_append, List.head?_cons, List.tail_cons]
      rw [List.head?_cons, List.tail_cons] at ha
      split at ha <;> rename_i hsign
      · rw [if_pos hsign]
        exact afterWhole?_append hrest ha
      · rw [if_neg hsign]
        exact afterWhole?_append hrest ha
  · have hwhole : (cs ++ rest).take ((cs ++ rest).length - rest.length) = cs := by
      rw [List.length_append, Nat.add_sub_cancel, List.take_left]
    rw [List.length_nil, Nat.sub_zero, List.take_length] at hj
    rw [hwhole, hj]

/-- What a number starts with. -/
def StartsNumber (c : Char) : Prop := c = '-' ∨ c.isDigit = true

theorem StartsNumber.ne {c d : Char} (h : StartsNumber c) (hsign : d ≠ '-')
    (hdigit : d.isDigit = false) : c ≠ d := by
  rintro rfl
  obtain h | h := h
  · exact hsign h
  · rw [hdigit] at h
    cases h

theorem StartsNumber.not_blank {c : Char} (h : StartsNumber c) : isBlank c = false := by
  have hspace : c ≠ ' ' := h.ne (by decide) rfl
  have htab : c ≠ '\t' := h.ne (by decide) rfl
  have hline : c ≠ '\n' := h.ne (by decide) rfl
  have hreturn : c ≠ '\r' := h.ne (by decide) rfl
  simp [isBlank, hspace, htab, hline, hreturn]

theorem exists_cons_of_number? {j : Json} (h : number? cs = some (j, after)) :
    ∃ c rest, cs = c :: rest ∧ StartsNumber c := by
  obtain ⟨a, -, ha, -⟩ := number?_eq_some_iff.mp h
  cases cs with
  | nil => cases ha
  | cons c cs =>
    refine ⟨c, cs, rfl, ?_⟩
    rw [List.head?_cons, List.tail_cons] at ha
    split at ha <;> rename_i hsign
    · exact Or.inl (Option.some.inj hsign)
    · right
      unfold afterWhole? at ha
      split at ha
      · rename_i heq
        cases heq
        rfl
      · change (if c.isDigit = true then _ else none) = some a at ha
        split at ha <;> rename_i hc
        · exact hc
        · cases ha

/-! ### Whole documents -/

mutual

/-- A document that is not marked as unreadable anywhere, and whose numbers are numbers. -/
def Legible : Json → Prop
  | null | bool _ | string _ => True
  | number digits => number? digits.toList = some (number digits, [])
  | array xs => LegibleElements xs
  | object ms => LegibleMembers ms
  | unreadable => False

def LegibleElements : List Json → Prop
  | [] => True
  | x :: xs => x.Legible ∧ LegibleElements xs

def LegibleMembers : List (String × Json) → Prop
  | [] => True
  | (_, x) :: ms => x.Legible ∧ LegibleMembers ms

end

/-- No text of a document starts with a blank, or with the end of an array. -/
theorem exists_cons_of_legible {j : Json} (h : j.Legible) :
    ∃ c cs, j.print = c :: cs ∧ isBlank c = false ∧ c ≠ ']' := by
  cases j with
  | null => exact ⟨_, _, rfl, rfl, by decide⟩
  | bool b => cases b <;> exact ⟨_, _, rfl, rfl, by decide⟩
  | number digits =>
    obtain ⟨c, cs, hcs, hc⟩ := exists_cons_of_number? h
    exact ⟨c, cs, hcs, hc.not_blank, hc.ne (by decide) rfl⟩
  | string s => exact ⟨_, _, rfl, rfl, by decide⟩
  | array xs => exact ⟨_, _, rfl, rfl, by decide⟩
  | object ms => exact ⟨_, _, rfl, rfl, by decide⟩
  | unreadable => exact h.elim

theorem print_length_pos {j : Json} (h : j.Legible) : 0 < j.print.length := by
  obtain ⟨c, cs, hcs, -⟩ := exists_cons_of_legible h
  rw [hcs]
  exact Nat.succ_pos _

theorem skipBlanks_cons {c : Char} (h : isBlank c = false) (cs : List Char) :
    skipBlanks (c :: cs) = c :: cs := by
  unfold skipBlanks
  rw [List.dropWhile_cons, h]
  rfl

theorem value?_number {digits : List Char} {j : Json} (h : number? digits = some (j, []))
    (hrest : Ends rest) (fuel : Nat) : value? (fuel + 1) (digits ++ rest) = some (j, rest) := by
  have hnumber := number?_append hrest h
  obtain ⟨c, cs, rfl, hc⟩ := exists_cons_of_number? h
  have hother : ∀ {d : Char} {ds : List Char}, d ≠ '-' → d.isDigit = false →
      c :: (cs ++ rest) ≠ d :: ds := fun hsign hdigit heq =>
    hc.ne hsign hdigit (List.cons.inj heq).1
  unfold value?
  rw [List.cons_append, skipBlanks_cons hc.not_blank]
  split <;> rename_i heq
  · exact absurd heq (hother (by decide) rfl)
  · exact absurd heq (hother (by decide) rfl)
  · exact absurd heq (hother (by decide) rfl)
  · exact absurd heq (hother (by decide) rfl)
  · exact absurd heq (hother (by decide) rfl)
  · exact absurd heq (hother (by decide) rfl)
  · exact hnumber

theorem value?_string (s : String) (rest : List Char) (fuel : Nat) :
    value? (fuel + 1) (quote s ++ rest) = some (string s, rest) := by
  have hquote : quote s ++ rest = '"' :: (s.toList.flatMap escape ++ '"' :: rest) := by
    simp [quote]
  rw [hquote]
  change (stringBody? .empty (s.toList.flatMap escape ++ '"' :: rest)).map
    (fun p => (p.1.elim unreadable string, p.2)) = _
  rw [stringBody?_quoted]
  rfl

theorem ofMembers_named (ms : List (String × Json)) :
    ofMembers (ms.map fun m => (some m.1, m.2)) = object ms := by
  have hnames : (ms.map fun m => (some m.1, m.2)).mapM
      (fun m : Option String × Json => m.1.map fun name => (name, m.2)) = some ms := by
    induction ms with
    | nil => rfl
    | cons m ms ih =>
      rw [List.map_cons, List.mapM_cons, ih]
      rfl
  unfold ofMembers
  rw [hnames]

theorem ends_comma (rest : List Char) : Ends (',' :: rest) :=
  fun _ h => Or.inl (Option.some.inj h).symm

theorem ends_bracket (rest : List Char) : Ends (']' :: rest) :=
  fun _ h => Or.inr (Or.inl (Option.some.inj h).symm)

theorem ends_brace (rest : List Char) : Ends ('\x7d' :: rest) :=
  fun _ h => Or.inr (Or.inr (Option.some.inj h).symm)

theorem value?_bracket {c : Char} (hblank : isBlank c = false) (hc : c ≠ ']') (cs : List Char)
    (fuel : Nat) : value? (fuel + 1) ('[' :: c :: cs) =
      (elements? fuel (c :: cs)).map fun p => (array p.1, p.2) := by
  have hbracket : skipBlanks ('[' :: c :: cs) = '[' :: c :: cs := rfl
  unfold value?
  rw [hbracket]
  split
  case h_2 rest heq =>
    cases heq
    rw [skipBlanks_cons hblank]
    split
    · rename_i heq
      exact absurd (List.cons.inj heq).1 hc
    · rfl
  case h_7 _ hother _ _ _ _ => exact absurd rfl (hother (c :: cs))
  all_goals
    rename_i heq
    cases heq

theorem exists_cons_of_legibleElements {x : Json} {xs : List Json} (h : LegibleElements (x :: xs)) :
    ∃ c cs, printElements (x :: xs) = c :: cs ∧ isBlank c = false ∧ c ≠ ']' := by
  obtain ⟨c, cs, hcs, hc⟩ := exists_cons_of_legible h.1
  cases xs with
  | nil => exact ⟨c, cs, hcs, hc⟩
  | cons y ys =>
    refine ⟨c, cs ++ ',' :: printElements (y :: ys), ?_, hc⟩
    change x.print ++ _ = _
    rw [hcs]
    rfl

theorem exists_quote_of_members (name : String) (x : Json) (ms : List (String × Json)) :
    ∃ cs, printMembers ((name, x) :: ms) = '"' :: cs := by
  cases ms <;> exact ⟨_, rfl⟩

/-- The value of a member, after its name. -/
theorem members?_quote (name : String) (rest : List Char) (fuel : Nat) :
    members? (fuel + 1) (quote name ++ ':' :: rest) = (do
      let (x, rest) ← value? fuel rest
      match skipBlanks rest with
      | ',' :: rest => (members? fuel rest).map fun (ms, rest) => ((some name, x) :: ms, rest)
      | '\x7d' :: rest => some ([(some name, x)], rest)
      | _ => none) := by
  have hquote : quote name ++ ':' :: rest =
      '"' :: (name.toList.flatMap escape ++ '"' :: ':' :: rest) := by
    simp [quote]
  rw [hquote]
  change (stringBody? .empty (name.toList.flatMap escape ++ '"' :: ':' :: rest) >>= _) = _
  rw [stringBody?_quoted]
  rfl

mutual

theorem value?_print : (j : Json) → j.Legible → ∀ (fuel : Nat) (rest : List Char),
    j.print.length ≤ fuel → Ends rest → value? fuel (j.print ++ rest) = some (j, rest)
  | null, _, fuel + 1, _, _, _ => rfl
  | bool true, _, fuel + 1, _, _, _ => rfl
  | bool false, _, fuel + 1, _, _, _ => rfl
  | number digits, h, fuel + 1, _, _, hrest => value?_number h hrest fuel
  | string s, _, fuel + 1, rest, _, _ => value?_string s rest fuel
  | array [], _, fuel + 1, _, _, _ => rfl
  | array (x :: xs), h, fuel + 1, rest, hfuel, _ => by
    have hlength : (array (x :: xs)).print.length = (printElements (x :: xs)).length + 2 := by
      change ('[' :: (printElements (x :: xs) ++ [']'])).length = _
      rw [List.length_cons, List.length_append, List.length_singleton]
    have hxs := elements?_print (x :: xs) h (List.cons_ne_nil x xs) fuel rest (by omega)
    have hprint : (array (x :: xs)).print ++ rest =
        '[' :: (printElements (x :: xs) ++ ']' :: rest) := by
      change '[' :: (printElements (x :: xs) ++ [']']) ++ rest = _
      rw [List.cons_append, List.append_assoc, List.singleton_append]
    obtain ⟨c, cs, hcs, hblank, hc⟩ := exists_cons_of_legibleElements h
    rw [hprint]
    rw [hcs, List.cons_append] at hxs ⊢
    rw [value?_bracket hblank hc, hxs]
    rfl
  | object [], _, fuel + 1, _, _, _ => rfl
  | object ((name, x) :: ms), h, fuel + 1, rest, hfuel, _ => by
    have hlength : (object ((name, x) :: ms)).print.length =
        (printMembers ((name, x) :: ms)).length + 2 := by
      change ('\x7b' :: (printMembers ((name, x) :: ms) ++ ['\x7d'])).length = _
      rw [List.length_cons, List.length_append, List.length_singleton]
    have hms := members?_print ((name, x) :: ms) h (List.cons_ne_nil _ _) fuel rest (by omega)
    have hprint : (object ((name, x) :: ms)).print ++ rest =
        '\x7b' :: (printMembers ((name, x) :: ms) ++ '\x7d' :: rest) := by
      change '\x7b' :: (printMembers ((name, x) :: ms) ++ ['\x7d']) ++ rest = _
      rw [List.cons_append, List.append_assoc, List.singleton_append]
    have hvalue : ∀ cs, value? (fuel + 1) ('\x7b' :: '"' :: cs) =
        (members? fuel ('"' :: cs)).map fun p => (ofMembers p.1, p.2) := fun _ => rfl
    obtain ⟨cs, hcs⟩ := exists_quote_of_members name x ms
    rw [hprint]
    rw [hcs, List.cons_append] at hms ⊢
    rw [hvalue, hms]
    change some (ofMembers (((name, x) :: ms).map fun m => (some m.1, m.2)), rest) = _
    rw [ofMembers_named]
  | j, h, 0, _, hfuel, _ => absurd hfuel (Nat.not_le.mpr (print_length_pos h))

theorem elements?_print : (xs : List Json) → LegibleElements xs → xs ≠ [] →
    ∀ (fuel : Nat) (rest : List Char), (printElements xs).length < fuel →
    elements? fuel (printElements xs ++ ']' :: rest) = some (xs, rest)
  | [], _, hne, _, _, _ => absurd rfl hne
  | [x], h, _, fuel + 1, rest, hfuel => by
    have hx := value?_print x h.1 fuel _ (Nat.le_of_lt_succ hfuel) (ends_bracket rest)
    change (value? fuel (x.print ++ ']' :: rest) >>= _) = _
    rw [hx]
    rfl
  | x :: y :: ys, h, _, fuel + 1, rest, hfuel => by
    have hcons : printElements (x :: y :: ys) = x.print ++ ',' :: printElements (y :: ys) := rfl
    have hpos := print_length_pos h.1
    rw [hcons, List.length_append, List.length_cons] at hfuel
    have hx := value?_print x h.1 fuel _ (by omega)
      (ends_comma (printElements (y :: ys) ++ ']' :: rest))
    have hys := elements?_print (y :: ys) h.2 (List.cons_ne_nil y ys) fuel rest (by omega)
    rw [hcons, List.append_assoc, List.cons_append]
    change (value? fuel (x.print ++ ',' :: (printElements (y :: ys) ++ ']' :: rest)) >>= _) = _
    rw [hx]
    change (elements? fuel (printElements (y :: ys) ++ ']' :: rest)).map _ = _
    rw [hys]
    rfl

theorem members?_print : (ms : List (String × Json)) → LegibleMembers ms → ms ≠ [] →
    ∀ (fuel : Nat) (rest : List Char), (printMembers ms).length < fuel →
    members? fuel (printMembers ms ++ '\x7d' :: rest) =
      some (ms.map fun m => (some m.1, m.2), rest)
  | [], _, hne, _, _, _ => absurd rfl hne
  | [(name, x)], h, _, fuel + 1, rest, hfuel => by
    have hcons : printMembers [(name, x)] = quote name ++ ':' :: x.print := rfl
    rw [hcons, List.length_append, List.length_cons] at hfuel
    have hx := value?_print x h.1 fuel _ (by omega) (ends_brace rest)
    rw [hcons, List.append_assoc, List.cons_append, members?_quote, hx]
    rfl
  | (name, x) :: m :: ms, h, _, fuel + 1, rest, hfuel => by
    have hcons : printMembers ((name, x) :: m :: ms) =
        quote name ++ ':' :: (x.print ++ ',' :: printMembers (m :: ms)) := by
      change quote name ++ ':' :: x.print ++ ',' :: printMembers (m :: ms) = _
      rw [List.append_assoc, List.cons_append]
    rw [hcons, List.length_append, List.length_cons, List.length_append, List.length_cons] at hfuel
    have hx := value?_print x h.1 fuel _ (by omega)
      (ends_comma (printMembers (m :: ms) ++ '\x7d' :: rest))
    have hms := members?_print (m :: ms) h.2 (List.cons_ne_nil m ms) fuel rest (by omega)
    rw [hcons, List.append_assoc, List.cons_append, List.append_assoc, List.cons_append,
      members?_quote, hx]
    change (members? fuel (printMembers (m :: ms) ++ '\x7d' :: rest)).map _ = _
    rw [hms]
    rfl

end

/-- The text of a legible document reads back as that document. -/
theorem parse?_text {j : Json} (h : j.Legible) : parse? j.text = some j := by
  have hvalue := value?_print j h (2 * j.print.length + 2) [] (by omega) (fun _ h => by cases h)
  rw [List.append_nil] at hvalue
  unfold parse? text
  rw [String.toList_ofList, String.length_ofList, hvalue]
  rfl

end DifferentialPrivacy.Json
