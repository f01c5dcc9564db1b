import DifferentialPrivacy.Error

set_option autoImplicit false

/-!
Sources of seed bytes. The simulated source is one stream of words that a seed determines: word
number `i` is a function of the seed and `i` alone, and every request for bytes starts a fresh word.
-/

namespace DifferentialPrivacy

class EntropySource (σ : Type) where
  fill : Nat → σ → Except EntropyFault (List UInt8 × σ)

/-- A seed of `n` bytes. -/
def EntropySource.seed {σ : Type} [EntropySource σ] (n : Nat) (source : σ) :
    Except EntropyFault (List UInt8 × σ) := EntropySource.fill n source

/-- The eight bytes of a word, the lowest first. -/
def littleEndian (w : UInt64) : List UInt8 :=
  (List.range 8).map fun i => (w >>> (8 * UInt64.ofNat i)).toUInt8

/-- A simulated source: the seed, and how many of its words are used up. -/
structure WordStream where
  seed : UInt64
  used : UInt64
deriving DecidableEq, Repr

namespace WordStream

def ofSeed (seed : UInt64) : WordStream := ⟨seed, 0⟩

/-- Starts over with the stream of another seed. -/
def reseed (seed : UInt64) (_ : WordStream) : WordStream := ofSeed seed

/-- The odd constant that successive words are apart before mixing. -/
def gamma : UInt64 := 0x9E3779B97F4A7C15

/-- A bijection of the words that spreads every bit over all others. -/
def mix (z : UInt64) : UInt64 :=
  let z := (z ^^^ (z >>> 30)) * 0xBF58476D1CE4E5B9
  let z := (z ^^^ (z >>> 27)) * 0x94D049BB133111EB
  z ^^^ (z >>> 31)

def word (seed i : UInt64) : UInt64 := mix (seed + i * gamma)

def next (s : WordStream) : UInt64 × WordStream :=
  let used := s.used + 1
  (word s.seed used, { s with used })

/-- The next `n` bytes. Of the last word the first bytes are taken, and the rest of it is lost. -/
def fill (n : Nat) (s : WordStream) : List UInt8 × WordStream :=
  if n = 0 then ([], s)
  else
    let (w, s) := s.next
    let (bytes, s) := fill (n - 8) s
    ((littleEndian w).take n ++ bytes, s)
termination_by n

instance : EntropySource WordStream := ⟨fun n s => .ok (s.fill n)⟩

end WordStream

structure BrokenSource where
  reason : String

instance : EntropySource BrokenSource := ⟨fun _ s => .error (.platform s.reason)⟩

end DifferentialPrivacy
