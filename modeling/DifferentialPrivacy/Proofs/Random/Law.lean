import Mathlib.Algebra.BigOperators.Group.List.Basic
import Mathlib.Algebra.BigOperators.Ring.List
import Mathlib.Data.Rat.Lemmas
import Mathlib.Tactic.Ring

set_option autoImplicit false

/-!
# Finite laws

The law of a computation that draws finitely many values, with rational probabilities: every way it
can run, with the probability of that run. Runs with one result are kept apart and meet again in
`expect` and `prob`.
-/
namespace DifferentialPrivacy

structure Law (α : Type) where
  runs : List (Rat × α)

namespace Law

variable {α β : Type}

def bind (L : Law α) (next : α → Law β) : Law β :=
  ⟨L.runs.flatMap fun r => (next r.2).runs.map fun s => (r.1 * s.1, s.2)⟩

instance : Monad Law where
  pure a := ⟨[(1, a)]⟩
  bind := bind

def uniformBelow (n : Nat) : Law Nat := ⟨(List.range n).map fun i => (1 / (n : Rat), i)⟩

def coin (p : Rat) : Law Bool := ⟨[(p, true), (1 - p, false)]⟩

def expect (L : Law α) (f : α → Rat) : Rat := (L.runs.map fun r => r.1 * f r.2).sum

def prob [DecidableEq α] (L : Law α) (a : α) : Rat := L.expect fun b => if b = a then 1 else 0

theorem expect_pure (a : α) (f : α → Rat) : (pure a : Law α).expect f = f a := by
  change (List.map _ [((1 : Rat), a)]).sum = _
  simp

theorem expect_coin (p : Rat) (f : Bool → Rat) :
    (coin p).expect f = p * f true + (1 - p) * f false := by
  unfold expect coin
  simp

theorem expect_bind (L : Law α) (next : α → Law β) (f : β → Rat) :
    (L >>= next).expect f = L.expect fun a => (next a).expect f := by
  change (List.map _ (L.runs.flatMap _)).sum = _
  unfold expect
  induction L.runs with
  | nil => rfl
  | cons r rs ih =>
    rw [List.flatMap_cons, List.map_append, List.sum_append, ih, List.map_cons, List.sum_cons,
      List.map_map, ← List.sum_map_mul_left]
    congr 3
    funext s
    exact mul_assoc _ _ _

/-- A uniform index into a list gives the mean over its elements. -/
theorem expect_uniformBelow (as : List α) (d : α) (f : α → Rat) :
    (uniformBelow as.length).expect (fun i => f (as.getD i d)) =
      1 / as.length * (as.map f).sum := by
  -- Going through the indices in order reads the list off.
  have has : (List.range as.length).map (fun i => as.getD i d) = as := by
    apply List.ext_getElem
    · simp
    · intro i hi hi'
      simp [hi']
  unfold expect uniformBelow
  conv_rhs => rw [← has]
  rw [← List.sum_map_mul_left]
  simp [Function.comp_def]

end Law
end DifferentialPrivacy
