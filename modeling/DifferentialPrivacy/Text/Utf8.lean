set_option autoImplicit false

/-!
Texts as bytes. Main definitions: `Utf8.units`, which takes bytes apart into characters and the
bytes that belong to none, and `Utf8.decode?`, which accepts bytes that are all characters.
-/

namespace DifferentialPrivacy

namespace Utf8

/-- How a character that begins with byte `b` goes on: the bits that `b` adds, the least and the
    greatest second byte, and how many bytes come after the second. Bytes below `0x80` are
    characters by themselves; longer forms of a character, surrogates and numbers past the last
    character have no first or no second byte here. -/
def leading? (b : Nat) : Option (Nat × Nat × Nat × Nat) :=
  if b < 0xc2 then none
  else if b < 0xe0 then some (b % 0x20, 0x80, 0xbf, 0)
  else if b = 0xe0 then some (0, 0xa0, 0xbf, 1)
  else if b = 0xed then some (0xd, 0x80, 0x9f, 1)
  else if b < 0xf0 then some (b % 0x10, 0x80, 0xbf, 1)
  else if b = 0xf0 then some (0, 0x90, 0xbf, 2)
  else if b < 0xf4 then some (b % 8, 0x80, 0xbf, 2)
  else if b = 0xf4 then some (4, 0x80, 0x8f, 2)
  else none

/-- How many bytes a character has whose first byte is `b`, by the leading bits of `b` alone. -/
def width? (b : Nat) : Option Nat :=
  if b < 0x80 then some 1
  else if b / 0x20 = 6 then some 2
  else if b / 0x10 = 0xe then some 3
  else if b / 8 = 0x1e then some 4
  else none

/-- Whether a byte goes on with a character. -/
def isTrailing (b : Nat) : Bool := b / 0x40 = 2

/-- The number made of `n` further bytes after `value`, and what follows them. -/
def trailing? : Nat → Nat → List UInt8 → Option (Nat × List UInt8)
  | 0, value, bytes => some (value, bytes)
  | n + 1, value, b :: bytes =>
    if isTrailing b.toNat then trailing? n (value * 0x40 + b.toNat % 0x40) bytes else none
  | _ + 1, _, [] => none

/-- The character at the start of the bytes, and what follows it. -/
def first? : List UInt8 → Option (Char × List UInt8)
  | [] => none
  | b :: bytes =>
    if b.toNat < 0x80 then some (Char.ofNat b.toNat, bytes)
    else
      match leading? b.toNat, bytes with
      | some (value, low, high, more), c :: bytes =>
        if low ≤ c.toNat && c.toNat ≤ high then
          (trailing? more (value * 0x40 + c.toNat % 0x40) bytes).map fun (n, rest) =>
            (Char.ofNat n, rest)
        else none
      | _, _ => none

theorem length_trailing? {n value m : Nat} {bytes rest : List UInt8}
    (h : trailing? n value bytes = some (m, rest)) : rest.length ≤ bytes.length := by
  induction n generalizing value bytes with
  | zero => simp only [trailing?, Option.some.injEq, Prod.mk.injEq] at h; simp [h.2]
  | succ n ih =>
    cases bytes with
    | nil => simp [trailing?] at h
    | cons b bytes =>
      simp only [trailing?] at h
      split at h
      · have := ih h
        simp only [List.length_cons]
        omega
      · simp at h

theorem length_first? {bytes rest : List UInt8} {c : Char} (h : first? bytes = some (c, rest)) :
    rest.length < bytes.length := by
  cases bytes with
  | nil => simp [first?] at h
  | cons b bytes =>
    simp only [first?] at h
    split at h
    · simp only [Option.some.injEq, Prod.mk.injEq] at h
      simp [h.2]
    · split at h
      · split at h
        · simp only [Option.map_eq_some_iff, Prod.mk.injEq] at h
          obtain ⟨⟨n, r⟩, hr, _, rfl⟩ := h
          have := length_trailing? hr
          simp only [List.length_cons]
          omega
        · simp at h
      · simp at h

/-- The characters of the bytes, in order, and by themselves the bytes at which no character
    starts. -/
def units (bytes : List UInt8) : List (Char ⊕ UInt8) :=
  match _h : first? bytes with
  | some (c, rest) => .inl c :: units rest
  | none =>
    match bytes with
    | [] => []
    | b :: rest => .inr b :: units rest
termination_by bytes.length
decreasing_by
  · exact length_first? _h
  · simp

def decode? (bytes : List UInt8) : Option (List Char) :=
  (units bytes).mapM fun
    | .inl c => some c
    | .inr _ => none

end Utf8
end DifferentialPrivacy
