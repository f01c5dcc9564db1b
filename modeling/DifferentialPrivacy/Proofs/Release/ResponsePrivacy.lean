import DifferentialPrivacy.Proofs.Random.Law
import DifferentialPrivacy.Proofs.Random.Outcome
import DifferentialPrivacy.Proofs.Release.Mechanism
import Mathlib.Algebra.Order.Field.Basic
import Mathlib.Algebra.Order.Ring.Rat
import Mathlib.Tactic.FieldSimp
import Mathlib.Tactic.Linarith

set_option autoImplicit false

/-!
# Privacy of randomized response

A lie is a uniform choice from the categories without the truth, in whatever order they stand. With
`t` categories every category is reported with a probability between `(1 - p) / (t - 1)` and `p`, of
any truth, so no two truths are further apart than the ratio of these.
-/
namespace DifferentialPrivacy.ResponsePrivacy

variable {c : Categories} {p : Rat} {x y : Value}

/-! ### One answer -/

theorem others_eq (c : Categories) (x : Value) : c.others x = (c.values.erase x).length := by
  unfold Categories.others
  rw [List.length_erase]

/-- The index skips the place of the truth. -/
theorem respond_false (c : Categories) (x : Value) (i : Nat) :
    c.respond x i false = (c.values.erase x).getD i x := by
  rw [List.erase_eq_eraseIdx]
  unfold Categories.respond
  cases c.values.idxOf? x with
  | none => rfl
  | some j =>
    dsimp only
    rw [if_neg Bool.false_ne_true, List.getD_eq_getElem?_getD, List.getD_eq_getElem?_getD,
      List.getElem?_eraseIdx]
    by_cases h : i < j
    · rw [if_pos h, if_neg (by omega)]
    · rw [if_neg h, if_pos (by omega)]

theorem respond_true_of_mem (h : x ∈ c.values) (i : Nat) : c.respond x i true = x := by
  unfold Categories.respond
  split
  · rename_i hx
    exact absurd h (List.idxOf?_eq_none_iff.mp hx)
  · rfl

theorem respond_true_of_not_mem (h : x ∉ c.values) (i : Nat) :
    c.respond x i true = (c.values.erase x).getD i x := by
  rw [List.erase_of_not_mem h]
  unfold Categories.respond
  rw [List.idxOf?_eq_none_iff.mpr h]

theorem respond_mem {i : Nat} (hi : i < c.others x) (honest : Bool) :
    c.respond x i honest ∈ c.values := by
  rw [others_eq] at hi
  have hlie : (c.values.erase x).getD i x ∈ c.values := by
    rw [List.getD_eq_getElem?_getD, List.getElem?_eq_getElem hi]
    exact List.mem_of_mem_erase (List.getElem_mem hi)
  cases honest with
  | false => rwa [respond_false]
  | true =>
    by_cases hx : x ∈ c.values
    · rwa [respond_true_of_mem hx]
    · rwa [respond_true_of_not_mem hx]

/-! ### The law of the answer -/

/-- The probability that `y` is reported of the truth `x`, where the index is uniform and the answer
    honest with probability `p`, independently. -/
def probability (c : Categories) (p : Rat) (x y : Value) : Rat :=
  (c.report Law.uniformBelow (Law.coin p) x).prob y

theorem expect_report (c : Categories) (p : Rat) (x : Value) (f : Value → Rat) :
    (c.report Law.uniformBelow (Law.coin p) x).expect f = (Law.uniformBelow (c.others x)).expect
      fun i => p * f (c.respond x i true) + (1 - p) * f (c.respond x i false) := by
  unfold Categories.report
  simp only [Law.expect_bind, Law.expect_coin, Law.expect_pure]

theorem two_le_length (ht : 2 ≤ c.values.length) : (2 : Rat) ≤ c.values.length := by
  exact_mod_cast ht

theorem sum_indicator {vs : List Value} (h : vs.Nodup) (y : Value) :
    (vs.map fun v => if v = y then (1 : Rat) else 0).sum = if y ∈ vs then 1 else 0 := by
  induction vs with
  | nil => rfl
  | cons v vs ih =>
    obtain ⟨hv, hvs⟩ := List.nodup_cons.mp h
    rw [List.map_cons, List.sum_cons, ih hvs]
    by_cases heq : v = y
    · subst heq
      simp [hv]
    · simp [heq, Ne.symm heq]

theorem probability_of_mem (ht : 2 ≤ c.values.length) (hx : x ∈ c.values) :
    probability c p x y = if y = x then p
      else if y ∈ c.values then (1 - p) / (c.values.length - 1) else 0 := by
  have hlen : ((c.values.erase x).length : Rat) = c.values.length - 1 := by
    rw [List.length_erase_of_mem hx, Nat.cast_sub (by omega), Nat.cast_one]
  have hpos : (c.values.length : Rat) - 1 ≠ 0 := by
    have h := two_le_length ht
    linarith
  have hmem : y ∈ c.values.erase x ↔ y ≠ x ∧ y ∈ c.values := c.nodup.mem_erase_iff
  unfold probability Law.prob
  rw [expect_report, others_eq]
  simp only [respond_true_of_mem hx, respond_false]
  rw [Law.expect_uniformBelow (c.values.erase x) x
    (fun v => p * (if x = y then 1 else 0) + (1 - p) * if v = y then 1 else 0)]
  rw [List.sum_map_add, List.sum_map_mul_left, List.sum_map_mul_left,
    sum_indicator (c.nodup.erase x), List.map_const', List.sum_replicate, nsmul_eq_mul, hlen]
  -- An honest answer is the truth and a lie is not, so each answer comes about in one way only.
  by_cases hy : y = x
  · have hno : y ∉ c.values.erase x := fun h => (hmem.mp h).1 hy
    rw [if_pos hy, if_pos hy.symm, if_neg hno]
    field_simp
    ring
  · rw [if_neg hy, if_neg (Ne.symm hy)]
    by_cases hyc : y ∈ c.values
    · rw [if_pos hyc, if_pos (hmem.mpr ⟨hy, hyc⟩)]
      ring
    · rw [if_neg hyc, if_neg (fun h => hyc (hmem.mp h).2)]
      ring

theorem probability_of_not_mem (hx : x ∉ c.values) :
    probability c p x y = if y ∈ c.values then 1 / (c.values.length : Rat) else 0 := by
  unfold probability Law.prob
  rw [expect_report, others_eq]
  simp only [respond_true_of_not_mem hx, respond_false, ← add_mul, add_sub_cancel, one_mul]
  rw [List.erase_of_not_mem hx, Law.expect_uniformBelow c.values x (fun v => if v = y then 1 else 0),
    sum_indicator c.nodup]
  split <;> ring

theorem probability_eq_zero (ht : 2 ≤ c.values.length) (hy : y ∉ c.values) :
    probability c p x y = 0 := by
  by_cases hx : x ∈ c.values
  · have hne : y ≠ x := fun h => hy (h ▸ hx)
    rw [probability_of_mem ht hx, if_neg hne, if_neg hy]
  · rw [probability_of_not_mem hx, if_neg hy]

theorem probability_of_perm {c' : Categories} (ht : 2 ≤ c.values.length)
    (h : c'.values.Perm c.values) : probability c' p x y = probability c p x y := by
  have hlen := h.length_eq
  by_cases hx : x ∈ c.values
  · rw [probability_of_mem ht hx, probability_of_mem (by omega) (h.mem_iff.mpr hx), hlen]
    simp only [h.mem_iff]
  · rw [probability_of_not_mem hx, probability_of_not_mem (fun hx' => hx (h.mem_iff.mp hx')), hlen]
    simp only [h.mem_iff]

theorem sum_probability (ht : 2 ≤ c.values.length) (p : Rat) (x : Value) :
    (c.values.map (probability c p x)).sum = 1 := by
  have h := two_le_length ht
  by_cases hx : x ∈ c.values
  · let lie : Rat := (1 - p) / (c.values.length - 1)
    have hlie : lie * (c.values.length - 1) = 1 - p := div_mul_cancel₀ _ (by linarith)
    have heq : c.values.map (probability c p x) =
        c.values.map fun y => lie + (p - lie) * if y = x then 1 else 0 := by
      apply List.map_congr_left
      intro y hy
      rw [probability_of_mem ht hx, if_pos hy]
      split <;> ring
    rw [heq, List.sum_map_add, List.sum_map_mul_left, sum_indicator c.nodup, if_pos hx,
      List.map_const', List.sum_replicate, nsmul_eq_mul]
    linarith
  · have heq : c.values.map (probability c p x) =
        c.values.map fun _ => 1 / (c.values.length : Rat) := by
      apply List.map_congr_left
      intro y hy
      rw [probability_of_not_mem hx, if_pos hy]
    rw [heq, List.map_const', List.sum_replicate, nsmul_eq_mul]
    field_simp

/-! ### Bounds -/

section Bounds

variable (ht : 2 ≤ c.values.length) (hp : 1 / (c.values.length : Rat) ≤ p)
include ht hp

theorem lie_le_uniform : (1 - p) / (c.values.length - 1) ≤ 1 / (c.values.length : Rat) := by
  have h := two_le_length ht
  rw [div_le_iff₀ (by linarith)] at hp
  rw [div_le_div_iff₀ (by linarith) (by linarith)]
  linarith

theorem probability_le (x y : Value) : probability c p x y ≤ p := by
  have h : (0 : Rat) ≤ 1 / c.values.length := by positivity
  have hlie := lie_le_uniform ht hp
  by_cases hx : x ∈ c.values
  · rw [probability_of_mem ht hx]
    split_ifs <;> linarith
  · rw [probability_of_not_mem hx]
    split_ifs <;> linarith

theorem le_probability (x : Value) (hy : y ∈ c.values) :
    (1 - p) / (c.values.length - 1) ≤ probability c p x y := by
  have hlie := lie_le_uniform ht hp
  by_cases hx : x ∈ c.values
  · rw [probability_of_mem ht hx]
    split_ifs <;> linarith
  · rw [probability_of_not_mem hx, if_pos hy]
    exact hlie

theorem probability_nonneg (hp1 : p < 1) (x y : Value) : 0 ≤ probability c p x y := by
  have h := two_le_length ht
  by_cases hy : y ∈ c.values
  · exact (div_nonneg (by linarith) (by linarith)).trans (le_probability ht hp x hy)
  · rw [probability_eq_zero ht hy]

theorem probability_mul_le (hp1 : p < 1) (x x' y : Value) :
    probability c p x y * (1 - p) ≤ p * (c.values.length - 1) * probability c p x' y := by
  have h := two_le_length ht
  by_cases hy : y ∈ c.values
  · have hpos : 0 < p := lt_of_lt_of_le (by positivity) hp
    have hlow := le_probability ht hp x' hy
    rw [div_le_iff₀ (by linarith)] at hlow
    calc probability c p x y * (1 - p)
        ≤ p * (1 - p) := mul_le_mul_of_nonneg_right (probability_le ht hp x y) (by linarith)
      _ ≤ p * (probability c p x' y * (c.values.length - 1)) :=
          mul_le_mul_of_nonneg_left hlow hpos.le
      _ = p * (c.values.length - 1) * probability c p x' y := by ring
  · rw [probability_eq_zero ht hy, probability_eq_zero ht hy, zero_mul, mul_zero]

end Bounds

/-! ### The mechanism -/

theorem always_report {γ : Type} [Generator γ] (ht : 2 ≤ c.values.length) (honest : Draw γ Bool)
    (x : Value) : Draw.Always (c.report Draw.index honest x) (· ∈ c.values) := by
  have hpos : 0 < c.others x := by
    unfold Categories.others
    split <;> omega
  refine (Draw.always_index _ hpos).bind ?_
  intro i hi
  refine (Draw.always_trivial honest).bind ?_
  intro b _
  exact Draw.always_pure (respond_mem hi b)

theorem of_randomizedResponse_eq_ok [Elementary] {caps : Capabilities} {a : Atom} {f : Format}
    {q : Binary f} {M : Measurement .discrete (.maxDivergence f)}
    (h : Measurement.randomizedResponse caps a c f q = .ok M) :
    2 ≤ c.values.length ∧
      M.function = drawing (c.report Draw.index (Draw.bernoulli (q.convert _))) := by
  obtain ⟨-, ht, -, rfl⟩ := Measurement.randomizedResponse_eq_ok_iff.mp h
  exact ⟨ht, rfl⟩

/-- The probabilities of any answer to two truths are at most a factor `p (t - 1) / (1 - p)` apart.
    The answer is always a category, the truth with probability `p` if it is one, and the order of
    the categories plays no part. A mechanism is built from the same answer, with the draws of the
    generator in place of the law. -/
theorem randomizedResponse_private (ht : 2 ≤ c.values.length)
    (hp : 1 / (c.values.length : Rat) ≤ p) (hp1 : p < 1) :
    (∀ x x' y, probability c p x y * (1 - p) ≤
      p * (c.values.length - 1) * probability c p x' y) ∧
    (∀ x y, 0 ≤ probability c p x y) ∧
    (∀ x, (c.values.map (probability c p x)).sum = 1) ∧
    (∀ x y, y ∉ c.values → probability c p x y = 0) ∧
    (∀ x ∈ c.values, probability c p x x = p) ∧
    (∀ c' : Categories, c'.values.Perm c.values → ∀ x y,
      probability c' p x y = probability c p x y) ∧
    ∀ [Elementary] (caps : Capabilities) (a : Atom) (f : Format) (q : Binary f) M,
      Measurement.randomizedResponse caps a c f q = .ok M →
        M.function = drawing (c.report Draw.index (Draw.bernoulli (q.convert _))) ∧
        ∀ entropy x y, M.invoke entropy x = .ok y → y ∈ c.values := by
  refine ⟨probability_mul_le ht hp hp1, probability_nonneg ht hp hp1, sum_probability ht p,
    fun _ _ => probability_eq_zero ht, ?_, fun c' h _ _ => probability_of_perm ht h, ?_⟩
  · intro x hx
    rw [probability_of_mem ht hx, if_pos rfl]
  · intro _ caps a f q M hM
    have hfun := (of_randomizedResponse_eq_ok hM).2
    refine ⟨hfun, ?_⟩
    intro entropy x y hy
    have h := of_invokeBetween_eq_ok hy
    rw [hfun] at h
    exact Draw.of_drawing_eq_ok (always_report ht _ x) h

def colours : Categories := ⟨[.string "red", .string "green", .string "blue"], by decide⟩

/-- Three categories, the most telling answer, and a truth that is no category. -/
theorem randomizedResponse_private_colours :
    2 ≤ colours.values.length ∧ 1 / (colours.values.length : Rat) ≤ 3 / 5 ∧ (3 / 5 : Rat) < 1 ∧
    probability colours (3 / 5) (.string "red") (.string "red") = 3 / 5 ∧
    probability colours (3 / 5) (.string "red") (.string "red") * (1 - 3 / 5) ≤
      3 / 5 * (colours.values.length - 1) *
        probability colours (3 / 5) (.string "black") (.string "red") := by
  have ht : 2 ≤ colours.values.length := by decide
  have hp : 1 / (colours.values.length : Rat) ≤ 3 / 5 := by
    change 1 / ((3 : Nat) : Rat) ≤ 3 / 5
    norm_num
  have hp1 : (3 / 5 : Rat) < 1 := by norm_num
  have h := randomizedResponse_private ht hp hp1
  exact ⟨ht, hp, hp1, h.2.2.2.2.1 _ (by decide), h.1 _ _ _⟩

end DifferentialPrivacy.ResponsePrivacy
