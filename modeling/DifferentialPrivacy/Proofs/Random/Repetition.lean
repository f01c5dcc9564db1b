import DifferentialPrivacy.Proofs.Random.Outcome

set_option autoImplicit false

/-!
# How repeated draws end

A draw that is repeated ends with the first attempt that gives a result, as an error of an attempt, or
at its limit. So if no attempt ever gives a result the limit is where it ends, and if no attempt fails
there is no other way for it to fail.
-/
namespace DifferentialPrivacy.Draw

variable {γ α β : Type} {P : Error → Prop}

/-- Every error that a draw ends in has the property `P`. -/
def FailsOnly (draw : Draw γ α) (P : Error → Prop) : Prop := ∀ g e, draw g = .error e → P e

/-- A draw that ends in one error, whatever the generator. -/
def Fails (draw : Draw γ α) (e : Error) : Prop := ∀ g, draw g = .error e

/-- A draw that gives one value only, whatever the generator. -/
def Gives (draw : Draw γ α) (a : α) : Prop := ∀ g, ∃ g', draw g = .ok (a, g')

/-- The error of a repetition that ran into its limit. -/
def exhausted : Error := .failedFunction .noDrawAccepted

theorem failsOnly_pure (a : α) : FailsOnly (pure a : Draw γ α) P := by
  intro g e h
  cases h

/-- What follows a draw has to fail as it should on the values that the draw can give only. -/
theorem FailsOnly.bind_of_always {Q : α → Prop} {draw : Draw γ α} {next : α → Draw γ β}
    (h : FailsOnly draw P) (halways : Always draw Q) (hn : ∀ a, Q a → FailsOnly (next a) P) :
    FailsOnly (draw >>= next) P := by
  intro g e he
  change draw g >>= (fun r => next r.1 r.2) = .error e at he
  cases hdraw : draw g with
  | error e' =>
    rw [hdraw] at he
    cases he
    exact h g e hdraw
  | ok r =>
    rw [hdraw] at he
    exact hn r.1 (halways g r.1 r.2 hdraw) r.2 e he

theorem FailsOnly.bind {draw : Draw γ α} {next : α → Draw γ β} (h : FailsOnly draw P)
    (hn : ∀ a, FailsOnly (next a) P) : FailsOnly (draw >>= next) P :=
  h.bind_of_always (always_trivial draw) fun a _ => hn a

theorem Fails.bind {draw : Draw γ α} {e : Error} (h : Fails draw e) (next : α → Draw γ β) :
    Fails (draw >>= next) e := by
  intro g
  change draw g >>= (fun r => next r.1 r.2) = .error e
  rw [h g]
  rfl

theorem bind_of_eq_ok {draw : Draw γ α} {g g' : γ} {a : α} (h : draw g = .ok (a, g'))
    (next : α → Draw γ β) : (draw >>= next) g = next a g' := by
  change draw g >>= (fun r => next r.1 r.2) = _
  rw [h]
  rfl

theorem gives_pure (a : α) : Gives (pure a : Draw γ α) a := fun g => ⟨g, rfl⟩

theorem Gives.bind {draw : Draw γ α} {next : α → Draw γ β} {a : α} {b : β} (h : Gives draw a)
    (hn : Gives (next a) b) : Gives (draw >>= next) b := by
  intro g
  obtain ⟨g', hg⟩ := h g
  obtain ⟨g'', hg'⟩ := hn g'
  exact ⟨g'', (bind_of_eq_ok hg next).trans hg'⟩

/-! ### Repetitions -/

section Retry

variable {attempt : β → Draw γ (β ⊕ α)} {limit : Nat} {a : α} {b b' : β} {g g' : γ}

theorem retry_of_inl (h : attempt b g = .ok (.inl b', g')) :
    retry attempt (limit + 1) b g = retry attempt limit b' g' := by
  rw [retry]
  exact bind_of_eq_ok h _

theorem retry_of_inr (h : attempt b g = .ok (.inr a, g')) :
    retry attempt (limit + 1) b g = .ok (a, g') := by
  unfold retry
  exact bind_of_eq_ok h _

theorem failsOnly_retry (h : ∀ b, FailsOnly (attempt b) P) (hlimit : P exhausted) (limit : Nat) (b : β) :
    FailsOnly (retry attempt limit b) P := by
  induction limit generalizing b with
  | zero =>
    intro g e he
    cases he
    exact hlimit
  | succ limit ih =>
    unfold retry
    refine (h b).bind fun r => ?_
    cases r with
    | inl b => exact ih b
    | inr a => exact failsOnly_pure a

/-- If every attempt hands on a state, all of them are made. -/
theorem retry_fails (h : ∀ b g, ∃ b' g', attempt b g = .ok (.inl b', g')) (limit : Nat) (b : β) :
    Fails (retry attempt limit b) exhausted := by
  intro g
  induction limit generalizing b g with
  | zero => rfl
  | succ limit ih =>
    obtain ⟨b', g', hb⟩ := h b g
    rw [retry_of_inl hb]
    exact ih b' g'

end Retry

theorem attemptLimit_eq : attemptLimit = attemptLimit - 2 + 1 + 1 := by decide

section UntilAccepted

variable {attempt : Draw γ (Option α)}

theorem untilAccepted_of_some {a : α} {g g' : γ} (h : attempt g = .ok (some a, g')) :
    untilAccepted attempt g = .ok (a, g') := by
  unfold untilAccepted
  rw [attemptLimit_eq]
  apply retry_of_inr
  exact bind_of_eq_ok h _

theorem failsOnly_untilAccepted (h : FailsOnly attempt P) (hlimit : P exhausted) :
    FailsOnly (untilAccepted attempt) P := by
  refine failsOnly_retry (fun _ => h.bind fun r => ?_) hlimit _ _
  cases r with
  | none => exact failsOnly_pure _
  | some a => exact failsOnly_pure _

end UntilAccepted

section CountWhile

variable {draw : Draw γ Bool} {g g' : γ}

theorem countWhile_eq_zero (h : draw g = .ok (false, g')) : countWhile draw g = .ok (0, g') := by
  unfold countWhile
  rw [attemptLimit_eq]
  apply retry_of_inr
  exact bind_of_eq_ok h _

theorem countWhile_eq_one {g'' : γ} (h : draw g = .ok (true, g')) (h' : draw g' = .ok (false, g'')) :
    countWhile draw g = .ok (1, g'') := by
  have hfirst : (do if ← draw then return .inl (0 + 1) else return .inr 0 : Draw γ (Nat ⊕ Nat)) g =
      .ok (.inl 1, g') := bind_of_eq_ok h _
  unfold countWhile
  rw [attemptLimit_eq, retry_of_inl hfirst]
  apply retry_of_inr
  exact bind_of_eq_ok h' _

theorem countWhile_fails (h : draw.Gives true) :
    Fails (countWhile draw) exhausted := by
  refine retry_fails (fun n g => ?_) _ _
  obtain ⟨g', hg⟩ := h g
  exact ⟨n + 1, g', bind_of_eq_ok hg _⟩

theorem failsOnly_countWhile (h : FailsOnly draw P) (hlimit : P exhausted) :
    FailsOnly (countWhile draw) P := by
  refine failsOnly_retry (fun _ => h.bind fun taken => ?_) hlimit _ _
  cases taken with
  | false => exact failsOnly_pure _
  | true => exact failsOnly_pure _

end CountWhile

end DifferentialPrivacy.Draw
