import DifferentialPrivacy.Random.Generator
import DifferentialPrivacy.Number.Elementary

set_option autoImplicit false

/-!
Draws from a generator: words, uniform numbers, and draws repeated until one is accepted. A
generator may never give an acceptable word, so every repetition has a limit here, far beyond what it
takes in practice, and running into it is a failure of its own.
-/

namespace DifferentialPrivacy

abbrev Draw (γ α : Type) := StateT γ (Except Error) α

abbrev Binary64 := Binary .binary64

namespace Draw

variable {γ α β : Type}

def fail (fault : DistributionFault) : Draw γ α :=
  throw (.failedFunction (.distribution fault))

/-- Repeats an attempt, which may hand on a state, until it gives a result. -/
def retry (attempt : β → Draw γ (β ⊕ α)) : Nat → β → Draw γ α
  | 0, _ => throw (.failedFunction .noDrawAccepted)
  | limit + 1, b => do
    match ← attempt b with
    | .inl b => retry attempt limit b
    | .inr a => return a

/-- The loops of the samplers have no limit. Where a draw runs into this one, such a loop goes on, and
    for ever if no attempt gives a result. -/
def attemptLimit : Nat := twoPow 48

def untilAccepted (attempt : Draw γ (Option α)) : Draw γ α :=
  retry (fun _ : Unit => do
    match ← attempt with
    | some a => return .inr a
    | none => return .inl ()) attemptLimit ()

/-- The number of draws before the first that is not taken. -/
def countWhile (draw : Draw γ Bool) : Draw γ Nat :=
  retry (fun n : Nat => do
    if ← draw then return .inl (n + 1) else return .inr n) attemptLimit 0

variable [Generator γ]

def word : Draw γ UInt64 := fun g => .ok (Generator.next64 g)

def word32 : Draw γ UInt32 := fun g => .ok (Generator.next32 g)

def coin : Draw γ Bool := return twoPow 31 ≤ (← word32).toNat

/-- A multiple of `2 ^ (-53)` in `[0, 1)`. -/
def unit : Draw γ Binary64 := do
  return .ofRatio _ false ((← word).toNat / twoPow 11 * twoPow (Format.binary64.unitBits - 53)) 1

/-- `1 - 2 ^ (-53)` -/
def almostOne : Binary64 := .nextDown .one

/-- The number in `[2 ^ k, 2 ^ (k + 1))` whose fraction bits are the top bits of a word, where the
    exponent bits for `2 ^ k` are those of `start`. -/
def inBinade (start : UInt64) (w : UInt64) : Binary64 :=
  .ofBits _ (start ||| (w >>> 12)).toNat

/-- A number in `(0, 1)`, the middle of one of `2 ^ 52` equal steps. -/
def openUnit : Draw γ Binary64 := do
  return inBinade 0x3ff0000000000000 (← word) - almostOne

/-- A uniform index below `n`, which is positive: the high half of the product of a word with `n`,
    taken when the low half lies in the zone where every index has the same number of words. -/
def index (n : Nat) : Draw γ Nat :=
  let zone := n <<< (63 - n.log2) - 1
  untilAccepted do
    let product := (← word).toNat * n
    return if product % twoPow 64 ≤ zone then some (product / twoPow 64) else none

/-- `true` with the given probability. One draws nothing. -/
def bernoulli (probability : Binary64) : Draw γ Bool :=
  if Binary.zero.le probability && probability.lt .one then do
    let bound := (probability.units * twoPow 64 / twoPow Format.binary64.unitBits).toNat
    return (← word).toNat < bound
  else if probability.eq .one then return true
  else fail (.bernoulli probability)

end Draw

/-- A function that draws from the generator of its place. -/
def drawing {α β : Type} (draw : α → Draw ChaCha β) (entropy : Entropy) (x : α) : Result β := do
  return (← draw x (← entropy.generator)).1

end DifferentialPrivacy
