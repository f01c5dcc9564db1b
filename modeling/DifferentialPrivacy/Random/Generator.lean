import DifferentialPrivacy.Random.Entropy

set_option autoImplicit false

/-!
Generators of random words, and the one that the mechanisms draw from: the keystream of the ChaCha
cipher with twenty rounds, under a key taken from an entropy source.
-/

namespace DifferentialPrivacy

class Generator (γ : Type) where
  next32 : γ → UInt32 × γ
  next64 : γ → UInt64 × γ

/-- A generator that repeats a list of words, of which `rest` is still to come in this turn. Short
    words are the low halves of long ones. -/
structure Repeating where
  words : List UInt64
  rest : List UInt64

namespace Repeating

def next (g : Repeating) : UInt64 × Repeating :=
  match g.rest with
  | w :: rest => (w, { g with rest })
  | [] => (g.words.headD 0, { g with rest := g.words.drop 1 })

instance : Generator Repeating where
  next64 := next
  next32 g := let (w, g) := g.next; (w.toUInt32, g)

end Repeating

/-- A keystream: the key, the number of the next block, and the words left of the current one. -/
structure ChaCha where
  key : Vector UInt32 8
  block : UInt64
  rest : List UInt32

namespace ChaCha

abbrev State := Vector UInt32 16

def rotate (w : UInt32) (n : UInt32) : UInt32 := (w <<< n) ||| (w >>> (32 - n))

def quarterRound (s : State) (a b c d : Fin 16) : State :=
  let s := s.set a (s[a] + s[b])
  let s := s.set d (rotate (s[d] ^^^ s[a]) 16)
  let s := s.set c (s[c] + s[d])
  let s := s.set b (rotate (s[b] ^^^ s[c]) 12)
  let s := s.set a (s[a] + s[b])
  let s := s.set d (rotate (s[d] ^^^ s[a]) 8)
  let s := s.set c (s[c] + s[d])
  s.set b (rotate (s[b] ^^^ s[c]) 7)

/-- A round on the columns and one on the diagonals. -/
def doubleRound (s : State) : State :=
  let s := quarterRound s 0 4 8 12
  let s := quarterRound s 1 5 9 13
  let s := quarterRound s 2 6 10 14
  let s := quarterRound s 3 7 11 15
  let s := quarterRound s 0 5 10 15
  let s := quarterRound s 1 6 11 12
  let s := quarterRound s 2 7 8 13
  quarterRound s 3 4 9 14

/-- The constants, the key, the block number and a zero nonce. -/
def initial (key : Vector UInt32 8) (block : UInt64) : State :=
  #v[0x61707865, 0x3320646e, 0x79622d32, 0x6b206574,
    key[0], key[1], key[2], key[3], key[4], key[5], key[6], key[7],
    block.toUInt32, (block >>> 32).toUInt32, 0, 0]

def keystream (key : Vector UInt32 8) (block : UInt64) : State :=
  let start := initial key block
  start.zipWith (· + ·) (Nat.repeat doubleRound 10 start)

def next32 (g : ChaCha) : UInt32 × ChaCha :=
  match g.rest with
  | w :: rest => (w, { g with rest })
  | [] =>
    let words := keystream g.key g.block
    (words[0], { g with block := g.block + 1, rest := words.toList.drop 1 })

/-- Two words, the low one first. -/
def next64 (g : ChaCha) : UInt64 × ChaCha :=
  let (low, g) := g.next32
  let (high, g) := g.next32
  (high.toUInt64 <<< 32 ||| low.toUInt64, g)

instance : Generator ChaCha := ⟨next32, next64⟩

/-- The word made of four bytes from position `4 * i` on, the lowest first. -/
def keyWord (bytes : List UInt8) (i : Nat) : UInt32 :=
  ((bytes.drop (4 * i)).take 4).foldr (fun b w => w <<< 8 ||| b.toUInt32) 0

def ofSeed (bytes : List UInt8) : ChaCha :=
  ⟨Vector.ofFn fun i => keyWord bytes i, 0, []⟩

/-- A keystream under a key that the source hands out. -/
def seeded {σ : Type} [EntropySource σ] (source : σ) : Except EntropyFault (ChaCha × σ) := do
  let (bytes, source) ← EntropySource.seed 32 source
  return (ofSeed bytes, source)

end ChaCha

/-- Where randomized functions get their generators. Every path names a generator of its own, so
    that the parts of a composition draw independently. -/
def Entropy := List Nat → Except EntropyFault ChaCha

namespace Entropy

/-- The generator for a function that draws here. -/
def generator (e : Entropy) : Result ChaCha :=
  match e [] with
  | .ok g => .ok g
  | .error fault => .error (.entropy fault)

/-- What is left for part number `i`. -/
def child (e : Entropy) (i : Nat) : Entropy := fun path => e (i :: path)

/-- Every path gets the generator of a simulated source, seeded with the path. -/
def simulated (seed : UInt64) : Entropy := fun path => do
  let seed := path.foldl (fun s i => WordStream.word s (UInt64.ofNat (i + 1))) seed
  return (← ChaCha.seeded (WordStream.ofSeed seed)).1

end Entropy
end DifferentialPrivacy
