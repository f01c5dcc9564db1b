import DifferentialPrivacy.Random.Entropy
import Mathlib.Data.Nat.Digits.Defs
import Mathlib.Tactic.Ring

set_option autoImplicit false

/-!
# The simulated source as one stream of words

Whatever has been asked of a simulated source, it stands at a place: a seed, and the number of words
that have been used up since the stream of that seed began. Every request moves it from one place to
another, and the bytes that it hands out are those of the next words. So how the requests for bytes are
cut matters only within a word, and a new seed makes everything before it forgotten.
-/
namespace DifferentialPrivacy

/-! ### Bytes of a word -/

theorem toNat_byte (w : UInt64) {i : Nat} (hi : i < 8) :
    (w >>> (8 * UInt64.ofNat i)).toUInt8.toNat = w.toNat / 256 ^ i % 256 := by
  have hshift : (8 * UInt64.ofNat i).toNat % 64 = 8 * i := by
    rw [UInt64.toNat_mul, UInt64.toNat_ofNat']
    change 8 * (i % 2 ^ 64) % 2 ^ 64 % 64 = 8 * i
    omega
  rw [UInt64.toNat_toUInt8, UInt64.toNat_shiftRight, hshift, Nat.shiftRight_eq_div_pow, Nat.pow_mul]

theorem length_littleEndian (w : UInt64) : (littleEndian w).length = 8 := by
  unfold littleEndian
  rw [List.length_map, List.length_range]

/-- The bytes of a word are its digits, the lowest first. -/
theorem ofDigits_littleEndian (w : UInt64) :
    Nat.ofDigits 256 ((littleEndian w).map UInt8.toNat) = w.toNat := by
  have hbytes : (littleEndian w).map UInt8.toNat =
      (List.range 8).map fun i => w.toNat / 256 ^ i % 256 := by
    unfold littleEndian
    rw [List.map_map]
    exact List.map_congr_left fun i hi => toNat_byte w (List.mem_range.mp hi)
  have hw := w.toNat_lt
  rw [hbytes]
  change Nat.ofDigits 256 [_, _, _, _, _, _, _, _] = _
  simp only [Nat.ofDigits_cons, Nat.ofDigits_nil]
  omega

namespace WordStream

/-! ### Words in their order -/

/-- Word number `i` of the stream of a seed, counted from one on. -/
def wordAt (seed : UInt64) (i : Nat) : UInt64 := word seed (UInt64.ofNat i)

/-- How many words `n` bytes take up. -/
def wordsFor (n : Nat) : Nat := (n + 7) / 8

/-- The first `n` bytes of the words that follow the first `c`. -/
def bytesAfter (seed : UInt64) (c n : Nat) : List UInt8 :=
  ((List.range (wordsFor n)).flatMap fun i => littleEndian (wordAt seed (c + i + 1))).take n

theorem wordsFor_of_pos {n : Nat} (h : n ≠ 0) : wordsFor n = wordsFor (n - 8) + 1 := by
  unfold wordsFor
  omega

theorem wordsFor_mul_add (k n : Nat) : wordsFor (8 * k + n) = k + wordsFor n := by
  unfold wordsFor
  omega

theorem wordsFor_mul (k : Nat) : wordsFor (8 * k) = k := wordsFor_mul_add k 0

theorem bytesAfter_zero (seed : UInt64) (c : Nat) : bytesAfter seed c 0 = [] := List.take_zero ..

/-- The next word, and what follows it. -/
theorem bytesAfter_of_pos (seed : UInt64) (c : Nat) {n : Nat} (h : n ≠ 0) :
    bytesAfter seed c n =
      (littleEndian (wordAt seed (c + 1))).take n ++ bytesAfter seed (c + 1) (n - 8) := by
  have hshift : ∀ i, c + (i + 1) + 1 = c + 1 + i + 1 := fun i => by omega
  unfold bytesAfter
  rw [wordsFor_of_pos h, List.range_succ_eq_map, List.flatMap_cons, List.flatMap_map,
    List.take_append, length_littleEndian]
  simp only [Nat.add_zero, Nat.succ_eq_add_one, hshift]

theorem bytesAfter_mul_add (seed : UInt64) (c k n : Nat) :
    bytesAfter seed c (8 * k + n) =
      bytesAfter seed c (8 * k) ++ bytesAfter seed (c + k) n := by
  induction k generalizing c with
  | zero => rw [Nat.mul_zero, Nat.zero_add, bytesAfter_zero, List.nil_append, Nat.add_zero]
  | succ k ih =>
    have hwhole : ∀ m, 8 ≤ m → (littleEndian (wordAt seed (c + 1))).take m =
        littleEndian (wordAt seed (c + 1)) :=
      fun m hm => List.take_of_length_le ((length_littleEndian _).trans_le hm)
    rw [bytesAfter_of_pos seed c (by omega), bytesAfter_of_pos seed c (n := 8 * (k + 1)) (by omega),
      hwhole _ (by omega), hwhole _ (by omega), show 8 * (k + 1) + n - 8 = 8 * k + n by omega,
      show 8 * (k + 1) - 8 = 8 * k by omega, ih, List.append_assoc,
      show c + 1 + k = c + (k + 1) by omega]

/-! ### Places and requests -/

/-- The seed of a stream, and how many of its words are used up. -/
structure Place where
  seed : UInt64
  used : Nat

/-- What may be asked of a simulated source. -/
inductive Request
  | fill (n : Nat)
  | seed (n : Nat)
  | reseed (t : UInt64)

/-- What is handed out, and the source afterwards. -/
def Request.run : Request → WordStream → Except EntropyFault (List UInt8 × WordStream)
  | fill n, s => EntropySource.fill n s
  | seed n, s => EntropySource.seed n s
  | reseed t, s => .ok ([], s.reseed t)

/-- One request after the other. -/
def runAll : List Request → WordStream → Except EntropyFault (List (List UInt8) × WordStream)
  | [], s => .ok ([], s)
  | q :: qs, s => do
    let (bytes, s) ← q.run s
    let (replies, s) ← runAll qs s
    return (bytes :: replies, s)

namespace Place

def source (p : Place) : WordStream := ⟨p.seed, UInt64.ofNat p.used⟩

def after (p : Place) : Request → Place
  | .fill n | .seed n => { p with used := p.used + wordsFor n }
  | .reseed t => ⟨t, 0⟩

def reply (p : Place) : Request → List UInt8
  | .fill n | .seed n => bytesAfter p.seed p.used n
  | .reseed _ => []

def afterAll (p : Place) (qs : List Request) : Place := qs.foldl after p

end Place

theorem next_source (seed : UInt64) (c : Nat) : (Place.source ⟨seed, c⟩).next =
    (wordAt seed (c + 1), Place.source ⟨seed, c + 1⟩) := by
  unfold Place.source wordAt
  rw [UInt64.ofNat_add]
  rfl

theorem fill_source (seed : UInt64) (c n : Nat) : (Place.source ⟨seed, c⟩).fill n =
    (bytesAfter seed c n, Place.source ⟨seed, c + wordsFor n⟩) := by
  induction n using Nat.strong_induction_on generalizing c with
  | h n ih =>
    rw [fill]
    split
    · rename_i h0
      subst h0
      rw [bytesAfter_zero]
      rfl
    · rename_i h0
      rw [next_source]
      dsimp only
      rw [ih (n - 8) (by omega), bytesAfter_of_pos seed c h0, wordsFor_of_pos h0]
      dsimp only
      rw [show c + 1 + wordsFor (n - 8) = c + (wordsFor (n - 8) + 1) by omega]

/-- A request is answered with the bytes at the place of the source, and moves it on. -/
theorem run_source (p : Place) (q : Request) :
    q.run p.source = .ok (p.reply q, (p.after q).source) := by
  obtain ⟨seed, c⟩ := p
  cases q with
  | fill n => exact congrArg Except.ok (fill_source seed c n)
  | seed n => exact congrArg Except.ok (fill_source seed c n)
  | reseed t => rfl

theorem runAll_source (p : Place) (qs : List Request) : ∃ replies,
    runAll qs p.source = .ok (replies, (p.afterAll qs).source) ∧ replies.length = qs.length ∧
      ∀ before q rest, qs = before ++ q :: rest →
        replies[before.length]? = some ((p.afterAll before).reply q) := by
  induction qs generalizing p with
  | nil => exact ⟨[], rfl, rfl, fun before q rest h => absurd h (by simp)⟩
  | cons q qs ih =>
    obtain ⟨replies, hrun, hlength, hreplies⟩ := ih (p.after q)
    refine ⟨p.reply q :: replies, ?_, congrArg Nat.succ hlength, ?_⟩
    · unfold runAll
      rw [run_source]
      change (runAll qs (p.after q).source >>= _) = _
      rw [hrun]
      rfl
    · rintro before q' rest h
      cases before with
      | nil =>
        obtain ⟨rfl, -⟩ := List.cons.inj h
        rfl
      | cons q'' before =>
        obtain ⟨rfl, htail⟩ := List.cons.inj h
        exact hreplies before q' rest htail

/-- Every source stands at a place. -/
theorem exists_source (s : WordStream) : ∃ p : Place, s = p.source :=
  ⟨⟨s.seed, s.used.toNat⟩, by rw [Place.source, UInt64.ofNat_toNat]⟩

theorem fill_mul_add (k n : Nat) (s : WordStream) :
    s.fill (8 * k + n) =
      ((s.fill (8 * k)).1 ++ ((s.fill (8 * k)).2.fill n).1, ((s.fill (8 * k)).2.fill n).2) := by
  obtain ⟨⟨seed, c⟩, rfl⟩ := exists_source s
  rw [fill_source, fill_source, fill_source, bytesAfter_mul_add, wordsFor_mul, wordsFor_mul_add,
    Nat.add_assoc]

/-- Requests of a simulated source read on in the stream of words of its seed. -/
theorem requests_read_stream (seed : UInt64) (qs : List Request) :
    (∃ replies, runAll qs (ofSeed seed) = .ok (replies, (Place.afterAll ⟨seed, 0⟩ qs).source) ∧
      replies.length = qs.length ∧ ∀ before q rest, qs = before ++ q :: rest →
        replies[before.length]? = some ((Place.afterAll ⟨seed, 0⟩ before).reply q)) ∧
    (∀ w, Nat.ofDigits 256 ((littleEndian w).map UInt8.toNat) = w.toNat) ∧
    (∀ n s, (Request.seed n).run s = (Request.fill n).run s) ∧
    (∀ k n s, (Request.fill (8 * k + n)).run s = do
      let (bytes, s) ← (Request.fill (8 * k)).run s
      let (bytes', s) ← (Request.fill n).run s
      return (bytes ++ bytes', s)) ∧
    (∀ s, (Request.fill 0).run s = .ok ([], s)) ∧
    ∀ t s, (Request.reseed t).run s = .ok ([], ofSeed t) := by
  refine ⟨runAll_source ⟨seed, 0⟩ qs, ofDigits_littleEndian, fun _ _ => rfl, ?_, ?_, fun _ _ => rfl⟩
  · intro k n s
    exact congrArg Except.ok (s.fill_mul_add k n)
  · intro s
    change Except.ok (s.fill 0) = _
    rw [fill, if_pos rfl]

/-- The end of the second word is lost, the seed is the third, and the stream begins anew. -/
theorem requests_read_stream_one :
    ∃ replies s, runAll [.fill 13, .seed 8, .fill 0, .reseed 1, .fill 16] (ofSeed 1) =
        .ok (replies, s) ∧
      replies[0]? = some [0xc1, 0x5c, 0x02, 0x89, 0xec, 0x2d, 0x0a, 0x91, 0x67, 0xec, 0x8e, 0x65,
        0xa1] ∧
      replies[1]? = some [0x5e, 0x55, 0x32, 0xfb, 0xee, 0xa2, 0x93, 0xf8] ∧
      replies[4]? = some [0xc1, 0x5c, 0x02, 0x89, 0xec, 0x2d, 0x0a, 0x91, 0x67, 0xec, 0x8e, 0x65,
        0xa1, 0x8d, 0xeb, 0xbe] ∧ s.used = 2 := by
  obtain ⟨⟨replies, hrun, -, hreplies⟩, -⟩ :=
    requests_read_stream 1 [.fill 13, .seed 8, .fill 0, .reseed 1, .fill 16]
  refine ⟨replies, _, hrun, ?_, ?_, ?_, by decide⟩
  · exact (hreplies [] _ _ rfl).trans (by decide +kernel)
  · exact (hreplies [.fill 13] _ _ rfl).trans (by decide +kernel)
  · exact (hreplies [.fill 13, .seed 8, .fill 0, .reseed 1] _ _ rfl).trans (by decide +kernel)

end WordStream
end DifferentialPrivacy
