import DifferentialPrivacy.Random.Ziggurat

set_option autoImplicit false

/-!
Noise centred at zero: Laplace and Gaussian numbers of a format, and their discrete counterparts.
-/

namespace DifferentialPrivacy

/-- The numbers of failures before a success of probability `p` are split as
    `quotient * 2 ^ shift + remainder`, so that `2 ^ shift` failures in a row have probability
    `blockFailure`, at most one half. -/
structure Geometric where
  probability : Binary64
  blockFailure : Binary64
  shift : Nat
deriving DecidableEq, Repr

namespace Geometric

/-- Squares the probability of failure until it is at most one half. The squares of a double below
    one get there within a hundred steps. -/
def blocks : Nat → Binary64 → Nat → Binary64 × Nat
  | 0, failure, shift => (failure, shift)
  | steps + 1, failure, shift =>
    if (Binary.one / Binary.two).lt failure then blocks steps (failure * failure) (shift + 1)
    else (failure, shift)

def ofProbability? (p : Binary64) : Option Geometric :=
  if Binary.zero.le p && p.le .one then
    let failure := Binary.one - p
    let (blockFailure, shift) := blocks 100 (failure * failure) 1
    some ⟨p, blockFailure, shift⟩
  else none

/-- From this probability on, failures are counted one by one. -/
def twoThirds : Binary64 := Binary.two / .ofInt _ 3

variable {γ : Type} [Generator γ] [Elementary]

def failures (p : Binary64) (m : Nat) : Binary64 :=
  if m < twoPow 31 then (Binary.one - p).powNat m
  else Elementary.pow (Binary.one - p) (.ofInt _ m)

/-- The number of failures; a success of probability zero is never met. -/
def draw (g : Geometric) : Draw γ Nat :=
  if g.probability.isZero then return twoPow 64 - 1
  else if twoThirds.le g.probability then
    Draw.countWhile do return !(← Draw.unit).le g.probability
  else do
    let quotient ← Draw.countWhile do return (← Draw.unit).lt g.blockFailure
    let remainder ← Draw.untilAccepted do
      let m := (← Draw.word).toNat % twoPow g.shift
      return if (← Draw.unit).lt (failures g.probability m) then some m else none
    return (quotient * twoPow g.shift + remainder) % twoPow 64

end Geometric

namespace Draw

variable {γ : Type} [Generator γ] [Elementary] {f : Format}

/-- Laplace noise: an exponential magnitude and a coin for its sign. A zero scale draws nothing. -/
def laplace (scale : Binary f) : Draw γ (Binary f) := do
  let scale : Binary64 := scale.convert _
  if scale.eq .zero then return .zero
  else
    let rate := Binary.one / scale
    if !Binary.zero.le rate then fail (.laplace scale)
    else
      let magnitude := (← standardExponential) * (Binary.one / rate)
      return (if ← coin then magnitude else -magnitude).convert f

def gaussian (scale : Binary f) : Draw γ (Binary f) := do
  let scale : Binary64 := scale.convert _
  if !scale.isFinite then fail (.gaussian scale)
  else return (Binary.zero + scale * (← standardNormal)).convert f

/-- The largest amount that one side of a discrete draw can have. -/
def sideLimit : Nat := twoPow 63 - 1

/-- The probability of a success that gives discrete Laplace noise of this scale:
    `1 - e ^ (-1 / scale)`. -/
def successProbability (scale : Binary64) : Binary64 :=
  -Elementary.expMinusOne (-Binary.one / scale)

/-- The difference of two geometric draws. A zero scale draws nothing. -/
def discreteLaplace (scale : Binary64) : Draw γ Int := do
  if scale.eq .zero then return 0
  else if !Binary.zero.lt scale then fail (.discreteLaplace scale)
  else
    let p := successProbability scale
    match Geometric.ofProbability? p with
    | none => fail (.geometric p)
    | some g =>
      let positive := min (← g.draw) sideLimit
      let negative := min (← g.draw) sideLimit
      return (positive : Int) - negative

/-- The exponent of the rejection of a proposal `y`, in units of the variance. -/
def bias (variance t : Binary64) (y : Int) : Binary64 :=
  let distance := Binary.ofInt _ y.natAbs - variance / t
  distance * distance / (Binary.two * variance)

/-- Rejection from discrete Laplace proposals of scale `⌊scale⌋ + 1`. A variance that underflows
    leaves no mass off zero worth representing. -/
def discreteGaussian (scale : Binary64) : Draw γ Int :=
  let variance := scale * scale
  if variance.eq .zero then return 0
  else
    let t := scale.floor + .one
    untilAccepted do
      let y ← discreteLaplace t
      return if ← bernoulli (Elementary.exp (-bias variance t y)) then some y else none

end Draw
end DifferentialPrivacy
