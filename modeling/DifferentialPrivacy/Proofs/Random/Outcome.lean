import DifferentialPrivacy.Random.Noise
import DifferentialPrivacy.Proofs.Dataset.Records

set_option autoImplicit false

/-!
# What draws can come to

`Always draw P` says that a draw gives values with the property `P` only, from any state of the
generator; a draw that fails gives none. The property passes through sequences and through draws
that are repeated until one is accepted, however often that is.
-/
namespace DifferentialPrivacy.Draw

variable {γ α β : Type}

def Always (draw : Draw γ α) (P : α → Prop) : Prop := ∀ g a g', draw g = .ok (a, g') → P a

theorem always_pure {P : α → Prop} {a : α} (h : P a) : Always (pure a : Draw γ α) P := by
  intro g b g' hb
  cases hb
  exact h

theorem always_throw {P : α → Prop} (e : Error) : Always (throw e : Draw γ α) P := by
  intro g b g' hb
  cases hb

theorem Always.bind {P : α → Prop} {Q : β → Prop} {draw : Draw γ α} {next : α → Draw γ β}
    (h : Always draw P) (hn : ∀ a, P a → Always (next a) Q) : Always (draw >>= next) Q := by
  intro g b g' hb
  obtain ⟨⟨a, g₁⟩, ha, hb⟩ := bind_eq_ok_iff.mp hb
  exact hn a (h g a g₁ ha) g₁ b g' hb

theorem always_trivial (draw : Draw γ α) : Always draw fun _ => True := fun _ _ _ _ => trivial

/-- The states handed on between the attempts are free. -/
theorem always_retry {P : α → Prop} {attempt : β → Draw γ (β ⊕ α)}
    (h : ∀ b, Always (attempt b) fun r => ∀ a, r = .inr a → P a) (limit : Nat) (b : β) :
    Always (retry attempt limit b) P := by
  induction limit generalizing b with
  | zero => exact always_throw _
  | succ limit ih =>
    unfold retry
    refine (h b).bind ?_
    intro r hr
    cases r with
    | inl b => exact ih b
    | inr a => exact always_pure (hr a rfl)

theorem always_untilAccepted {P : α → Prop} {attempt : Draw γ (Option α)}
    (h : Always attempt fun r => ∀ a, r = some a → P a) : Always (untilAccepted attempt) P := by
  apply always_retry
  intro b
  refine h.bind ?_
  intro r hr
  cases r with
  | none => exact always_pure (fun a ha => by cases ha)
  | some a =>
    apply always_pure
    intro a' ha
    cases ha
    exact hr a rfl

/-! ### Several draws in a row -/

/-- `n` draws, each from the state of the generator that the one before left. -/
def times (draw : Draw γ α) : Nat → Draw γ (List α)
  | 0 => return []
  | n + 1 => do
    let a ← draw
    return a :: (← times draw n)

theorem always_times {P : α → Prop} {draw : Draw γ α} (h : Always draw P) (n : Nat) :
    Always (times draw n) fun as => as.length = n ∧ ∀ a ∈ as, P a := by
  induction n with
  | zero => exact always_pure ⟨rfl, fun a ha => absurd ha List.not_mem_nil⟩
  | succ n ih =>
    refine h.bind ?_
    intro a ha
    refine ih.bind ?_
    rintro as ⟨hl, has⟩
    apply always_pure
    refine ⟨by rw [List.length_cons, hl], ?_⟩
    intro b hb
    rcases List.mem_cons.mp hb with rfl | hb
    · exact ha
    · exact has b hb

/-- A pass over a list with one draw for each element makes the same draws for any list of that
    length. -/
theorem mapM_eq_times {δ : Type} (f : α → β → δ) (draw : Draw γ β) (xs : List α) :
    (xs.mapM fun x => do return f x (← draw)) =
      (do return List.zipWith f xs (← times draw xs.length) : Draw γ (List δ)) := by
  induction xs with
  | nil => simp [times]
  | cons x xs ih =>
    rw [List.mapM_cons, ih]
    simp [times]

/-! ### Draws of the library -/

variable [Generator γ]

theorem always_index (n : Nat) (hn : 0 < n) : Always (index n : Draw γ Nat) (· < n) := by
  apply always_untilAccepted
  refine (always_trivial _).bind ?_
  intro w _
  apply always_pure
  intro a ha
  split at ha
  · cases ha
    apply Nat.div_lt_of_lt_mul
    exact Nat.mul_lt_mul_of_pos_right w.toNat_lt hn
  · cases ha

/-! ### Draws of a function in its place -/

theorem drawing_eq_map {δ ε : Type} {draw : α → Draw ChaCha β} {x : α} (draw' : δ → Draw ChaCha ε)
    (y : δ) (f : ε → β) (h : draw x = (do return f (← draw' y))) (entropy : Entropy) :
    drawing draw entropy x = (do return f (← drawing draw' entropy y)) := by
  unfold drawing
  rw [h]
  cases entropy.generator with
  | error e => rfl
  | ok g =>
    change (do return (← (do return f (← draw' y) : Draw ChaCha β) g).1) =
      (do return f (← (do return (← draw' y g).1)))
    simp only [bind, StateT.bind]
    cases draw' y g <;> rfl

theorem of_drawing_eq_ok {P : β → Prop} {draw : α → Draw ChaCha β} {x : α}
    (h : Always (draw x) P) {entropy : Entropy} {b : β} (hb : drawing draw entropy x = .ok b) :
    P b := by
  obtain ⟨g, _, hb⟩ := bind_eq_ok_iff.mp hb
  obtain ⟨⟨a, g'⟩, ha, hb⟩ := bind_eq_ok_iff.mp hb
  cases hb
  exact h g a g' ha

end DifferentialPrivacy.Draw
