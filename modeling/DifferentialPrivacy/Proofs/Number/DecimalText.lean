import DifferentialPrivacy.Number.Numeric
import DifferentialPrivacy.Proofs.Number.ShortestDecimal
import Mathlib.Tactic.FieldSimp

set_option autoImplicit false

/-!
# Texts of numbers

A decimal is read back from either way of writing it, and a shortest decimal belongs to one number
only. So the texts of two numbers of a type differ, and so do those of the two zeros of a format.
Texts of numbers of different types may well be the same.
-/
namespace DifferentialPrivacy

theorem toList_toString (n : Nat) : (toString n).toList = Nat.toDigits 10 n := by
  rw [Nat.toString_eq_ofList_toDigits, String.toList_ofList]

theorem toList_toString_of_nonneg {k : Int} (h : 0 ≤ k) :
    (toString k).toList = Nat.toDigits 10 k.toNat := by
  change k.repr.toList = _
  rw [Int.repr_eq_if, if_pos h]
  exact toList_toString _

theorem toList_toString_of_neg {k : Int} (h : k < 0) :
    (toString k).toList = '-' :: Nat.toDigits 10 (-k).toNat := by
  change k.repr.toList = _
  rw [Int.repr_eq_if, if_neg (by omega), String.toList_append, ← toList_toString]
  rfl

theorem toList_pushn (s : String) (c : Char) (n : Nat) :
    (s.pushn c n).toList = s.toList ++ List.replicate n c := by
  rw [String.pushn_eq_repeat_push]
  induction n with
  | zero => exact (List.append_nil _).symm
  | succ n ih =>
    change ((Nat.repeat (fun s => s.push c) n s).push c).toList = _
    rw [String.toList_push, ih, List.append_assoc, ← List.replicate_succ']

/-- Every character is a decimal digit. -/
def AllDigits (cs : List Char) : Prop := ∀ c ∈ cs, c.isDigit = true

section Digits

variable {cs ds : List Char} {n : Nat}

theorem AllDigits.append (h : AllDigits cs) (h' : AllDigits ds) : AllDigits (cs ++ ds) := by
  intro c hc
  exact (List.mem_append.mp hc).elim (h c) (h' c)

theorem AllDigits.ne {c : Char} (h : AllDigits cs) (hc : c.isDigit = false) : c ∉ cs := by
  intro hmem
  rw [h c hmem] at hc
  cases hc

theorem allDigits_toDigits (n : Nat) : AllDigits (Nat.toDigits 10 n) := fun _ hc =>
  Nat.isDigit_of_mem_toDigits (by decide) (by decide) hc

theorem allDigits_zeros (n : Nat) : AllDigits (List.replicate n '0') := by
  intro c hc
  rw [List.eq_of_mem_replicate hc]
  rfl

theorem AllDigits.take (h : AllDigits cs) (n : Nat) : AllDigits (cs.take n) := fun c hc =>
  h c (List.mem_of_mem_take hc)

theorem AllDigits.drop (h : AllDigits cs) (n : Nat) : AllDigits (cs.drop n) := fun c hc =>
  h c (List.mem_of_mem_drop hc)

namespace Decimal

theorem ofDigits_eq (cs : List Char) : ofDigits cs = Nat.ofDigitChars 10 cs 0 := by
  rw [Nat.ofDigitChars_eq_foldl]
  unfold ofDigits
  simp only [Nat.mul_comm]

theorem ofDigits_toDigits (n : Nat) : ofDigits (Nat.toDigits 10 n) = n := by
  rw [ofDigits_eq, Nat.ofDigitChars_ten_toDigits]

theorem ofDigits_append_zeros (cs : List Char) (n : Nat) :
    ofDigits (cs ++ List.replicate n '0') = ofDigits cs * 10 ^ n := by
  rw [ofDigits_eq, ofDigits_eq, Nat.ofDigitChars_append, Nat.ofDigitChars_replicate_zero,
    Nat.mul_comm]

theorem ofDigits_zeros_append (n : Nat) (cs : List Char) :
    ofDigits (List.replicate n '0' ++ cs) = ofDigits cs := by
  rw [ofDigits_eq, ofDigits_eq, Nat.ofDigitChars_append, Nat.ofDigitChars_replicate_zero,
    Nat.mul_zero]

theorem skipSign_of_allDigits (h : AllDigits cs) : skipSign cs = cs := by
  unfold skipSign
  split
  · exact absurd List.mem_cons_self (h.ne rfl)
  · exact absurd List.mem_cons_self (h.ne rfl)
  · rfl

theorem ofSignedDigits_toString (k : Int) : ofSignedDigits (toString k).toList = k := by
  unfold ofSignedDigits
  rcases Int.lt_or_le k 0 with h | h
  · rw [toList_toString_of_neg h, if_pos (List.head?_cons ..)]
    change -((ofDigits (Nat.toDigits 10 (-k).toNat) : Nat) : Int) = k
    rw [ofDigits_toDigits]
    omega
  · have hdigits := allDigits_toDigits k.toNat
    rw [toList_toString_of_nonneg h, if_neg, skipSign_of_allDigits hdigits, ofDigits_toDigits]
    · omega
    · intro hhead
      exact hdigits.ne rfl (List.mem_of_head? hhead)

end Decimal
end Digits

/-! ### Reading a decimal back -/

namespace Decimal

section Reading

variable {front back : List Char}

/-- Digits with a point before the last ones, which is left out if there are none. -/
def significand (front back : List Char) : List Char :=
  front ++ if back = [] then [] else '.' :: back

/-- What digits with a point among them amount to. -/
def reading (front back : List Char) : ℚ := ofDigits (front ++ back) * 10 ^ (-(back.length : Int))

theorem reading_zeros (front back : List Char) (n : Nat) :
    reading front (back ++ List.replicate n '0') = reading front back := by
  unfold reading
  rw [← List.append_assoc, ofDigits_append_zeros, List.length_append, List.length_replicate,
    Nat.cast_add, neg_add, zpow_add₀ (by norm_num), zpow_neg _ (n : Int), zpow_natCast, Nat.cast_mul,
    Nat.cast_pow, Nat.cast_ofNat]
  have hpow : (10 : ℚ) ^ n ≠ 0 := by positivity
  field_simp

theorem isDigit_or_of_mem_significand (hf : AllDigits front) (hb : AllDigits back) {c : Char}
    (h : c ∈ significand front back) : c.isDigit = true ∨ c = '.' := by
  unfold significand at h
  split at h <;> simp only [List.mem_append, List.mem_cons, List.not_mem_nil, or_false] at h
  · exact Or.inl (hf c h)
  · rcases h with h | h | h
    · exact Or.inl (hf c h)
    · exact Or.inr h
    · exact Or.inl (hb c h)

theorem ne_exponent_of_mem_significand (hf : AllDigits front) (hb : AllDigits back) {c : Char}
    (h : c ∈ significand front back) : (c ≠ 'e' && c ≠ 'E') = true := by
  rcases isDigit_or_of_mem_significand hf hb h with h | rfl
  · simp only [Bool.and_eq_true, decide_eq_true_iff]
    constructor <;> rintro rfl <;> cases h
  · rfl

theorem filter_significand (hf : AllDigits front) (hb : AllDigits back) :
    (significand front back).filter (· ≠ '.') = front ++ back := by
  have hfilter : ∀ {cs : List Char}, AllDigits cs → cs.filter (· ≠ '.') = cs := by
    intro cs h
    apply List.filter_eq_self.mpr
    intro c hc
    apply decide_eq_true
    rintro rfl
    exact h.ne rfl hc
  unfold significand
  rw [List.filter_append, hfilter hf]
  split
  · rename_i hnil
    rw [hnil]
    rfl
  · rw [List.filter_cons_of_neg (by decide), hfilter hb]

theorem dropWhile_significand (hf : AllDigits front) :
    ((significand front back).dropWhile (· ≠ '.')).drop 1 = back := by
  have hfront : ∀ c ∈ front, decide (c ≠ '.') = true := by
    intro c hc
    apply decide_eq_true
    rintro rfl
    exact hf.ne rfl hc
  unfold significand
  rw [List.dropWhile_append_of_pos hfront]
  split
  · rename_i hnil
    rw [hnil]
    rfl
  · rw [List.dropWhile_cons_of_neg (by decide)]
    rfl

/-- A significand is read up to the letter that starts the exponent, or to the end. -/
theorem value_ofText_append (hf : AllDigits front) (hb : AllDigits back) (cs : List Char)
    (hrest : cs.takeWhile (fun c => c ≠ 'e' && c ≠ 'E') = []) :
    (ofText (significand front back ++ cs)).value =
      reading front back * 10 ^ ofSignedDigits (cs.drop 1) := by
  have hsignificand : (significand front back ++ cs).takeWhile (fun c => c ≠ 'e' && c ≠ 'E') =
      significand front back := by
    rw [List.takeWhile_append_of_pos fun c hc => ne_exponent_of_mem_significand hf hb hc, hrest,
      List.append_nil]
  unfold value ofText reading
  dsimp only
  rw [hsignificand, filter_significand hf hb, skipSign_of_allDigits (hf.append hb),
    dropWhile_significand hf, List.drop_left, mul_assoc, ← zpow_add₀ (by norm_num)]
  congr 2
  omega

theorem value_ofText_significand (hf : AllDigits front) (hb : AllDigits back) :
    (ofText (significand front back)).value = reading front back := by
  have hvalue := value_ofText_append hf hb [] rfl
  rwa [List.append_nil, show ofSignedDigits (List.drop 1 []) = 0 from rfl, zpow_zero, mul_one]
    at hvalue

theorem value_ofText_exponent (hf : AllDigits front) (hb : AllDigits back) (k : Int) :
    (ofText (significand front back ++ 'e' :: (toString k).toList)).value =
      reading front back * 10 ^ k := by
  have hvalue := value_ofText_append hf hb ('e' :: (toString k).toList)
    (List.takeWhile_cons_of_neg (by decide))
  rwa [List.drop_one, List.tail_cons, ofSignedDigits_toString] at hvalue

end Reading

/-! ### The two ways of writing a decimal -/

section Writing

/-- Digits, perhaps with a point among them, that amount to a number. -/
structure Writes (front back : List Char) (amount : ℚ) : Prop where
  front_digits : AllDigits front
  front_ne : front ≠ []
  back_digits : AllDigits back
  reading_eq : reading front back = amount

/-- The digits before and after the point of the positional form, before any are added. -/
def layout (d : Decimal) : String × String :=
  let digits := toString d.digits
  let whole := d.exponent + 1
  if whole ≤ 0 then ("0", "".pushn '0' (-whole).toNat ++ digits)
  else if digits.length ≤ whole.toNat then (digits.pushn '0' (whole.toNat - digits.length), "")
  else ((digits.take whole.toNat).toString, (digits.drop whole.toNat).toString)

theorem positional_eq (d : Decimal) (places : Nat) :
    d.positional places =
      let back := d.layout.2.pushn '0' (places - d.layout.2.length)
      if back.isEmpty then d.layout.1 else d.layout.1 ++ "." ++ back := rfl

theorem writes_layout (d : Decimal) : Writes d.layout.1.toList d.layout.2.toList d.value := by
  have hdigits := allDigits_toDigits d.digits
  have hlength := length_toString d.digits
  have hne := Nat.toDigits_ne_nil (n := d.digits) (b := 10)
  unfold layout value
  dsimp only
  split
  · rename_i hwhole
    dsimp only
    have hzero : "0".toList = List.replicate 1 '0' := rfl
    have hempty : "".toList = [] := rfl
    rw [String.toList_append, toList_pushn, toList_toString, hzero, hempty, List.nil_append]
    refine ⟨allDigits_zeros 1, List.cons_ne_nil _ _, (allDigits_zeros _).append hdigits, ?_⟩
    unfold reading
    rw [ofDigits_zeros_append, ofDigits_zeros_append, ofDigits_toDigits, List.length_append,
      List.length_replicate, ← hlength]
    congr 2
    omega
  · split
    · rename_i hwhole hle
      dsimp only
      have hempty : "".toList = [] := rfl
      rw [toList_pushn, toList_toString, hempty]
      refine ⟨hdigits.append (allDigits_zeros _), List.append_ne_nil_of_left_ne_nil hne _,
        allDigits_zeros 0, ?_⟩
      have hexponent : d.exponent + 1 - ((toString d.digits).length : Int) =
          ((d.exponent + 1).toNat - (toString d.digits).length : Nat) := by omega
      unfold reading
      rw [List.append_nil, ofDigits_append_zeros, ofDigits_toDigits, hexponent,
        zpow_natCast, Nat.cast_mul, Nat.cast_pow, Nat.cast_ofNat, List.length_nil, Nat.cast_zero,
        neg_zero, zpow_zero, mul_one]
    · rename_i hwhole hlt
      dsimp only
      rw [String.Slice.toString_eq, String.toList_copy_take, String.toList_copy_drop,
        toList_toString]
      refine ⟨hdigits.take _, ?_, hdigits.drop _, ?_⟩
      · rw [Ne, List.take_eq_nil_iff, not_or]
        exact ⟨by omega, hne⟩
      · unfold reading
        rw [List.take_append_drop, ofDigits_toDigits, List.length_drop, ← hlength]
        congr 2
        omega

theorem Writes.zeros {front back : List Char} {amount : ℚ} (h : Writes front back amount) (n : Nat) :
    Writes front (back ++ List.replicate n '0') amount where
  front_digits := h.front_digits
  front_ne := h.front_ne
  back_digits := h.back_digits.append (allDigits_zeros n)
  reading_eq := (reading_zeros front back n).trans h.reading_eq

/-- The point and the digits after it, as both forms write them. -/
theorem toList_point (front back : String) :
    (front ++ if back.isEmpty then "" else "." ++ back).toList =
      significand front.toList back.toList := by
  unfold significand
  rw [String.toList_append]
  by_cases h : back = ""
  · rw [if_pos (String.isEmpty_iff.mpr h), if_pos (String.toList_eq_nil_iff.mpr h)]
    rfl
  · rw [if_neg (mt String.isEmpty_iff.mp h), if_neg (mt String.toList_eq_nil_iff.mp h),
      String.toList_append]
    rfl

/-- The texts of an amount, with an exponent or without. -/
inductive Spells : List Char → ℚ → Prop
  | plain {front back : List Char} {amount : ℚ} (h : Writes front back amount) :
    Spells (significand front back) amount
  | exponent {front back : List Char} {amount : ℚ} (h : Writes front back amount) (k : Int) :
    Spells (significand front back ++ 'e' :: (toString k).toList) (amount * 10 ^ k)

theorem spells_positional (d : Decimal) (places : Nat) :
    Spells (d.positional places).toList d.value := by
  have htext : d.positional places = d.layout.1 ++
      if (d.layout.2.pushn '0' (places - d.layout.2.length)).isEmpty then ""
      else "." ++ d.layout.2.pushn '0' (places - d.layout.2.length) := by
    rw [positional_eq]
    dsimp only
    split
    · rw [String.append_empty]
    · rw [String.append_assoc]
  rw [htext, toList_point, toList_pushn]
  exact .plain ((writes_layout d).zeros _)

theorem writes_leading (d : Decimal) :
    Writes ((Nat.toDigits 10 d.digits).take 1) ((Nat.toDigits 10 d.digits).drop 1)
      (d.value / 10 ^ d.exponent) := by
  have hdigits := allDigits_toDigits d.digits
  have hlength := length_toString d.digits
  have hpos := Nat.length_toDigits_pos (n := d.digits) (b := 10)
  refine ⟨hdigits.take 1, ?_, hdigits.drop 1, ?_⟩
  · rw [Ne, List.take_eq_nil_iff, not_or]
    exact ⟨by decide, Nat.toDigits_ne_nil⟩
  · unfold reading value
    rw [List.take_append_drop, ofDigits_toDigits, List.length_drop, ← hlength,
      mul_div_assoc, ← zpow_sub₀ (by norm_num)]
    congr 2
    omega

theorem spells_scientific (d : Decimal) : Spells d.scientific.toList d.value := by
  have hletter : "e".toList = ['e'] := rfl
  have hspells := Spells.exponent (writes_leading d) d.exponent
  rw [div_mul_cancel₀ _ (ten_zpow_pos _).ne'] at hspells
  unfold scientific
  dsimp only
  rw [String.toList_append, String.toList_append, toList_point, String.Slice.toString_eq,
    String.toList_copy_take, String.toList_copy_drop, toList_toString, hletter, List.append_assoc]
  exact hspells

variable {text : List Char} {amount : ℚ}

/-- A decimal that is written down is read back with its value. -/
theorem Spells.value_ofText (h : Spells text amount) : (ofText text).value = amount := by
  cases h with
  | plain h => rw [value_ofText_significand h.front_digits h.back_digits, h.reading_eq]
  | exponent h k => rw [value_ofText_exponent h.front_digits h.back_digits, h.reading_eq]

theorem Spells.head (h : Spells text amount) : ∃ c cs, text = c :: cs ∧ c.isDigit = true := by
  have hhead : ∀ {front back : List Char} {amount : ℚ} (rest : List Char),
      Writes front back amount →
        ∃ c cs, significand front back ++ rest = c :: cs ∧ c.isDigit = true := by
    intro front back amount rest h
    cases front with
    | nil => exact absurd rfl h.front_ne
    | cons c front => exact ⟨c, _, rfl, h.front_digits c List.mem_cons_self⟩
  cases h with
  | plain h =>
    have hplain := hhead [] h
    rwa [List.append_nil] at hplain
  | exponent h k => exact hhead _ h

end Writing

end Decimal

/-! ### The texts of one type -/

/-- The characters of the texts of numbers. -/
def isNumeral (c : Char) : Bool := c.isDigit || c ∈ ['-', '.', 'e', 'i', 'n', 'f', 'N', 'a']

theorem isNumeral_of_isDigit {c : Char} (h : c.isDigit = true) : isNumeral c = true := by
  unfold isNumeral
  rw [h, Bool.true_or]

theorem isNumeral_of_mem_toString {k : Int} {c : Char} (h : c ∈ (toString k).toList) :
    isNumeral c = true := by
  rcases Int.lt_or_le k 0 with hk | hk
  · rw [toList_toString_of_neg hk] at h
    rcases List.mem_cons.mp h with rfl | h
    · rfl
    · exact isNumeral_of_isDigit (allDigits_toDigits _ c h)
  · rw [toList_toString_of_nonneg hk] at h
    exact isNumeral_of_isDigit (allDigits_toDigits _ c h)

theorem Decimal.Spells.isNumeral_of_mem {text : List Char} {amount : ℚ} (h : Spells text amount)
    {c : Char} (hc : c ∈ text) : isNumeral c = true := by
  have hsignificand : ∀ {front back : List Char} {amount : ℚ}, Writes front back amount →
      c ∈ significand front back → isNumeral c = true := by
    intro front back amount h hc
    rcases isDigit_or_of_mem_significand h.front_digits h.back_digits hc with hc | rfl
    · exact isNumeral_of_isDigit hc
    · rfl
  cases h with
  | plain h => exact hsignificand h hc
  | exponent h k =>
    rcases List.mem_append.mp hc with hc | hc
    · exact hsignificand h hc
    · rcases List.mem_cons.mp hc with rfl | hc
      · rfl
      · exact isNumeral_of_mem_toString hc

namespace Binary

variable {f : Format} {p q : Nat}

/-- How the text of a number writes its finite magnitude. -/
def magnitudeText (f : Format) (p : Nat) : String :=
  let d := Decimal.shortest f p
  if p ≠ 0 ∧ (d.exponent < -4 ∨ 16 ≤ d.exponent) then d.scientific else d.positional 1

theorem spells_magnitudeText (f : Format) (p : Nat) :
    Decimal.Spells (magnitudeText f p).toList (Decimal.shortest f p).value := by
  unfold magnitudeText
  dsimp only
  split
  · exact Decimal.spells_scientific _
  · exact Decimal.spells_positional _ 1

theorem magnitudeText_injective (f : Format) : Function.Injective (magnitudeText f) := by
  intro p q h
  apply Decimal.value_shortest_injective f
  dsimp only
  rw [← (spells_magnitudeText f p).value_ofText, h, (spells_magnitudeText f q).value_ofText]

/-- What follows the sign. -/
def unsignedText (f : Format) (p : Nat) : String :=
  if p = f.infinity then "inf" else magnitudeText f p

theorem toList_text_nan (f : Format) : (nan : Binary f).text.toList = ['N', 'a', 'N'] := by
  have htext : (nan : Binary f).text = "NaN" := rfl
  rw [htext]
  rfl

theorem toList_text_signed (negative : Bool) (h : p ≤ f.infinity) :
    (signed negative p h).text.toList =
      if negative then '-' :: (unsignedText f p).toList else (unsignedText f p).toList := by
  have htext : (signed negative p h).text =
      (if negative then "-" else "") ++ unsignedText f p := rfl
  rw [htext, String.toList_append]
  cases negative <;> rfl

theorem unsignedText_head (f : Format) (p : Nat) :
    ∃ c cs, (unsignedText f p).toList = c :: cs ∧ c ≠ '-' ∧ c ≠ 'N' := by
  unfold unsignedText
  split
  · exact ⟨'i', ['n', 'f'], rfl, by decide, by decide⟩
  · obtain ⟨c, cs, htext, hdigit⟩ := (spells_magnitudeText f p).head
    refine ⟨c, cs, htext, ?_, ?_⟩ <;> rintro rfl <;> cases hdigit

theorem unsignedText_injective (f : Format) : Function.Injective (unsignedText f) := by
  have hinf : ∀ p, "inf" ≠ magnitudeText f p := by
    intro p h
    obtain ⟨c, cs, htext, hdigit⟩ := (spells_magnitudeText f p).head
    rw [← h] at htext
    cases htext
    cases hdigit
  intro p q h
  unfold unsignedText at h
  split at h <;> split at h
  · rename_i hp hq
    rw [hp, hq]
  · exact absurd h (hinf q)
  · exact absurd h.symm (hinf p)
  · exact magnitudeText_injective f h

theorem text_signed_ne (negative : Bool) (h : p ≤ f.infinity) :
    (signed negative p h).text ≠ (nan : Binary f).text := by
  intro heq
  have hchars := congrArg String.toList heq
  obtain ⟨c, cs, htext, -, hc⟩ := unsignedText_head f p
  rw [toList_text_signed, toList_text_nan, htext] at hchars
  cases negative with
  | false => exact hc (List.cons.inj hchars).1
  | true => cases (List.cons.inj hchars).1

theorem text_signed_inj {n m : Bool} {hp : p ≤ f.infinity} {hq : q ≤ f.infinity}
    (h : (signed n p hp).text = (signed m q hq).text) : n = m ∧ p = q := by
  have hchars := congrArg String.toList h
  obtain ⟨c, cs, hctext, hc, -⟩ := unsignedText_head f p
  obtain ⟨d, ds, hdtext, hd, -⟩ := unsignedText_head f q
  rw [toList_text_signed, toList_text_signed] at hchars
  -- The sign is the first character, if there is one.
  cases n <;> cases m
  · exact ⟨rfl, unsignedText_injective f (String.toList_inj.mp hchars)⟩
  · rw [hctext] at hchars
    exact absurd (List.cons.inj hchars).1 hc
  · rw [hdtext] at hchars
    exact absurd (List.cons.inj hchars).1.symm hd
  · exact ⟨rfl, unsignedText_injective f (String.toList_inj.mp (List.cons.inj hchars).2)⟩

/-- Different numbers of a format have different texts, the two zeros among them. -/
theorem text_injective (f : Format) : Function.Injective (text (f := f)) := by
  intro x y h
  cases x with
  | nan =>
    cases y with
    | nan => rfl
    | signed m q hq => exact absurd h.symm (text_signed_ne m hq)
  | signed n p hp =>
    cases y with
    | nan => exact absurd h (text_signed_ne n hp)
    | signed m q hq =>
      obtain ⟨rfl, rfl⟩ := text_signed_inj h
      rfl

theorem isNumeral_of_mem_unsignedText {c : Char} (h : c ∈ (unsignedText f p).toList) :
    isNumeral c = true := by
  unfold unsignedText at h
  split at h
  · have hchars : "inf".toList.all isNumeral = true := rfl
    exact List.all_eq_true.mp hchars c h
  · exact (spells_magnitudeText f p).isNumeral_of_mem h

theorem isNumeral_of_mem_text {x : Binary f} {c : Char} (h : c ∈ x.text.toList) :
    isNumeral c = true := by
  cases x with
  | nan =>
    have hchars : ['N', 'a', 'N'].all isNumeral = true := rfl
    rw [toList_text_nan] at h
    exact List.all_eq_true.mp hchars c h
  | signed n p hp =>
    rw [toList_text_signed] at h
    cases n with
    | false => exact isNumeral_of_mem_unsignedText h
    | true =>
      rcases List.mem_cons.mp h with rfl | h
      · rfl
      · exact isNumeral_of_mem_unsignedText h

end Binary

namespace NumType

variable {t : NumType}

theorem text_injective (t : NumType) : Function.Injective t.text := by
  cases t with
  | int t =>
    intro x y h
    change toString x.val = toString y.val at h
    apply Integer.ext
    rw [← Decimal.ofSignedDigits_toString x.val, h, Decimal.ofSignedDigits_toString]
  | float f => exact Binary.text_injective f

theorem isNumeral_of_mem_text {x : t.Carrier} {c : Char} (h : c ∈ (t.text x).toList) :
    isNumeral c = true := by
  cases t with
  | int t => exact isNumeral_of_mem_toString h
  | float f => exact Binary.isNumeral_of_mem_text h

end NumType
end DifferentialPrivacy
