import DifferentialPrivacy.Pipeline.Measurement
import DifferentialPrivacy.Random.Draw

set_option autoImplicit false

/-!
Randomized response: the truth with probability `p`, otherwise one of the other categories, each as
likely as the next. With `n` categories every lie has probability `p' = (1 - p) / (n - 1)`, and the
loss of any change is `ln (p / p')`.
-/

namespace DifferentialPrivacy

/-- A set of categories in some order. -/
structure Categories where
  values : List Value
  nodup : values.Nodup

namespace Categories

def insert (c : Categories) (v : Value) : Categories :=
  if h : v ∈ c.values then c else ⟨v :: c.values, List.nodup_cons.mpr ⟨h, c.nodup⟩⟩

def ofList (vs : List Value) : Categories := vs.foldl insert ⟨[], List.nodup_nil⟩

/-- What is reported of a truth, given the choice among the other categories and whether the answer
    is honest. A truth that is no category is never reported. -/
def respond (c : Categories) (truth : Value) (choice : Nat) (honest : Bool) : Value :=
  match c.values.idxOf? truth with
  | none => c.values.getD choice truth
  | some i =>
    if honest then truth else c.values.getD (if i ≤ choice then choice + 1 else choice) truth

def others (c : Categories) (truth : Value) : Nat :=
  if truth ∈ c.values then c.values.length - 1 else c.values.length

/-- What is reported of a truth. `index n` chooses one of `n` others, and `honest` whether the truth
    is told; both may be random, in any sense of the word. -/
def report {m : Type → Type} [Monad m] (c : Categories) (index : Nat → m Nat) (honest : m Bool)
    (truth : Value) : m Value := do
  let choice ← index (c.others truth)
  return c.respond truth choice (← honest)

end Categories

namespace Measurement

/-- The probability of the truth is no less than that of any other category, and below one. -/
def checkProbability {f : Format} (p : Binary f) (categories : Nat) : Result Unit :=
  let uniform := Binary.one / .ofInt f categories
  if uniform.le p && p.lt .one then .ok ()
  else .error (.invalidParameter (.probability p.toNumber categories))

/-- Equal inputs cost nothing, and all others the same. -/
def discreteMap {f : Format} (loss : Binary f) (d : Integer .u32) : Result (Binary f) :=
  .ok (if d.val = 0 then .zero else loss)

/-- `p / (1 - p)`, rounded up. -/
def oddsUp {f : Format} (p : Binary f) : Binary f := p.divUp (Binary.one.subDown p)

def respondBool (truth : Value) (honest : Bool) : Value :=
  match truth with
  | .bool b => .bool (b ^^ !honest)
  | v => v

variable [Elementary]

def randomizedResponseBool (caps : Capabilities) (f : Format) (p : Binary f) :
    Result (Measurement .discrete (.maxDivergence f)) := do
  caps.require [.contrib]
  checkProbability p 2
  let loss := (oddsUp p).lnUp
  return {
    inputDomain := .all .bool
    outputDomain := .all .bool
    function := drawing fun truth => do
      return respondBool truth (← Draw.bernoulli (p.convert _))
    privacyMap := discreteMap loss }

def randomizedResponse (caps : Capabilities) (a : Atom) (categories : Categories) (f : Format)
    (p : Binary f) : Result (Measurement .discrete (.maxDivergence f)) := do
  caps.require [.contrib]
  let n := categories.values.length
  if n < 2 then throw (.invalidParameter .tooFewCategories)
  checkProbability p n
  let loss := ((oddsUp p).mulUp ((Binary.ofInt f n).subUp .one)).lnUp
  return {
    inputDomain := .all a
    outputDomain := .all a
    function := drawing (categories.report Draw.index (Draw.bernoulli (p.convert _)))
    privacyMap := discreteMap loss }

end Measurement
end DifferentialPrivacy
