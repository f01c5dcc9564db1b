import DifferentialPrivacy.Random.Draw
import DifferentialPrivacy.Random.Layers

set_option autoImplicit false

/-!
Standard exponential and standard normal numbers by the ziggurat method: a word picks a layer and a
point across it; most points lie under the density for certain, the others are compared with it, and
beyond the lowest layer the tail has a rule of its own.
-/

namespace DifferentialPrivacy.Ziggurat

variable {γ : Type} [Generator γ] [Elementary]

/-- A density over a table of layers. -/
structure Shape (γ : Type) where
  ends : Array UInt64
  heights : Array UInt64
  density : Binary64 → Binary64
  /-- The point across a layer, as a fraction of its end. -/
  across : UInt64 → Binary64
  /-- Whether a point `x` is known to lie inside the next layer, which ends at the second
      argument. -/
  inside : Binary64 → Binary64 → Bool
  tail : Binary64 → Draw γ Binary64

def entry (table : Array UInt64) (i : Nat) : Binary64 := .ofBits _ (table.getD i 0).toNat

def Shape.attempt (s : Shape γ) : Draw γ (Option Binary64) := do
  let w ← Draw.word
  let i := w.toNat % 256
  let u := s.across w
  let x := u * entry s.ends i
  if s.inside x (entry s.ends (i + 1)) then return some x
  else if i = 0 then return some (← s.tail u)
  else
    let height := entry s.heights (i + 1)
      + (entry s.heights i - entry s.heights (i + 1)) * (← Draw.unit)
    return if height.lt (s.density x) then some x else none

def exponentialShape : Shape γ where
  ends := exponentialEnds
  heights := exponentialHeights
  density x := Elementary.exp (-x)
  across w := Draw.inBinade 0x3ff0000000000000 w - Draw.almostOne
  inside x end' := x.lt end'
  tail _ := return entry exponentialEnds 1 - Elementary.ln (← Draw.unit)

/-- Beyond the end `r` of the lowest layer: exponential candidates of rate `r`, accepted against a
    second exponential. -/
def normalTail (u : Binary64) : Draw γ Binary64 := do
  let r := entry normalEnds 1
  let x ← Draw.untilAccepted do
    let x := Elementary.ln (← Draw.openUnit) / r
    let y := Elementary.ln (← Draw.openUnit)
    return if (-Binary.two * y).lt (x * x) then none else some x
  return if u.lt .zero then x - r else r - x

def normalShape : Shape γ where
  ends := normalEnds
  heights := normalHeights
  density x := Elementary.exp (-x * x / Binary.two)
  across w := Draw.inBinade 0x4000000000000000 w - .ofInt _ 3
  inside x end' := x.abs.lt end'
  tail := normalTail

end Ziggurat

namespace Draw

variable {γ : Type} [Generator γ] [Elementary]

def standardExponential : Draw γ Binary64 := untilAccepted Ziggurat.exponentialShape.attempt

def standardNormal : Draw γ Binary64 := untilAccepted Ziggurat.normalShape.attempt

end Draw
end DifferentialPrivacy
