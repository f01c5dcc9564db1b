import DifferentialPrivacy.Proofs.Number.ElementaryError

set_option autoImplicit false

/-!
# The error of the slope

At the order `1 + x` the slope is computed as `ρ` less a quotient. Every part of the quotient is off by
a part of its size, so the sign is the one of `ρ x² - (l - ln (1 + x))` unless that is nearly zero. Where
the slope is nearly zero the error is a small part of `ρ x²`.
-/
namespace DifferentialPrivacy

/-! ### The quotient -/

section Quotient

variable {η τ x X D l g N Q ρ : ℝ} (hη0 : 0 < η) (hη : η ≤ 1 / 8388608)

theorem abs_quotient_mul_sub_le (hD : 0 < D) (hQ : |Q - N / D| ≤ 3 * (η * |N / D| + τ)) :
    |Q * D - N| ≤ 3 * (η * |N|) + 3 * (τ * D) := by
  have hscaled := mul_le_mul_of_nonneg_right hQ hD.le
  have hleft : |Q - N / D| * D = |Q * D - N| := by
    rw [← abs_of_pos hD, ← abs_mul, abs_of_pos hD, sub_mul, div_mul_cancel₀ _ hD.ne']
  have hright : |N / D| * D = |N| := by
    rw [abs_div, abs_of_pos hD, div_mul_cancel₀ _ hD.ne']
  rw [hleft] at hscaled
  refine hscaled.trans_eq ?_
  rw [mul_assoc, add_mul, mul_assoc, hright]
  ring

include hη0

theorem le_add_of_le_add_mul {a m e : ℝ} (he : 0 ≤ e) (h : a ≤ m + 30 * (η * m) + e) :
    a ≤ m + (30 * (η * |a|) + e) := by
  rcases le_or_gt a m with hle | hgt
  · have := mul_nonneg hη0.le (abs_nonneg a)
    linarith
  · have := mul_le_mul_of_nonneg_left (hgt.le.trans (le_abs_self a)) hη0.le
    linarith

include hη

theorem abs_square_sub_le (hx : 0 < x) (hX : |X - x| ≤ 4 * (η * x))
    (hD : |D - X ^ 2| ≤ 4 * (η * X ^ 2)) : |D - x ^ 2| ≤ 13 * (η * x ^ 2) := by
  have hηx : 0 < η * x := by positivity
  obtain ⟨hX1, hX2⟩ := abs_le.mp hX
  have hsq : |X ^ 2 - x ^ 2| ≤ 17 / 2 * (η * x ^ 2) := by
    have hfactor : X ^ 2 - x ^ 2 = (X - x) * (X + x) := by ring
    rw [hfactor, abs_mul]
    have hsum : |X + x| ≤ 17 / 8 * x := by
      rw [abs_le]
      constructor <;> nlinarith
    calc
      _ ≤ 4 * (η * x) * (17 / 8 * x) := mul_le_mul hX hsum (abs_nonneg _) (by positivity)
      _ = _ := by ring
  have hX2' : X ^ 2 ≤ 9 / 8 * x ^ 2 := by
    have := (abs_le.mp hsq).2
    nlinarith [sq_nonneg x]
  have htri := abs_sub_le D (X ^ 2) (x ^ 2)
  have := mul_le_mul_of_nonneg_left hX2' hη0.le
  linarith

variable (hτ0 : 0 < τ) (hx : 0 < x) (hs : 0 ≤ l + g) (hD : |D - x ^ 2| ≤ 13 * (η * x ^ 2))
  (hN : |N - (l - g)| ≤ 3 * (η * |l - g|) + 9 / 2 * (η * (l + g)))
  (hQ : |Q - N / D| ≤ 3 * (η * |N / D| + τ))

include hτ0 hx hs hD hN hQ

theorem abs_quotient_sub_le : |Q * D - (l - g)| ≤
    7 * (η * |l - g|) + 19 / 4 * (η * (l + g)) + 7 / 2 * (τ * x ^ 2) := by
  have hx2 : 0 < x ^ 2 := by positivity
  have hηx := mul_le_mul_of_nonneg_right hη hx2.le
  obtain ⟨hD1, hD2⟩ := abs_le.mp hD
  have hQD := abs_quotient_mul_sub_le (by linarith) hQ
  have hηs : 0 ≤ η * (l + g) := by positivity
  have hηa : 0 ≤ η * |l - g| := by positivity
  have hsize : |N| ≤ |l - g| + (3 * (η * |l - g|) + 9 / 2 * (η * (l + g))) := by
    have := abs_sub_abs_le_abs_sub N (l - g)
    linarith
  have hscaled := mul_le_mul_of_nonneg_left hsize hη0.le
  have hτD := mul_le_mul_of_nonneg_left (by linarith : D ≤ 7 / 6 * x ^ 2) hτ0.le
  have hηηs := mul_le_mul_of_nonneg_right hη hηs
  have hηηa := mul_le_mul_of_nonneg_right hη hηa
  have htri := abs_sub_le (Q * D) N (l - g)
  linarith

theorem mul_sq_le_of_lt_quotient (hρ : 0 ≤ ρ) (h : ρ < Q) : ρ * x ^ 2 ≤
    l - g + (5 * (η * (l + g)) + 30 * (η * |l - g|) + 4 * (τ * x ^ 2)) := by
  have hx2 : 0 < x ^ 2 := by positivity
  have hηx := mul_le_mul_of_nonneg_right hη hx2.le
  obtain ⟨hD1, hD2⟩ := abs_le.mp hD
  obtain ⟨-, hhigh⟩ := abs_le.mp (abs_quotient_sub_le hη0 hη hτ0 hx hs hD hN hQ)
  have hηs : 0 ≤ η * (l + g) := by positivity
  have hηa : 0 ≤ η * |l - g| := by positivity
  have hτx : 0 ≤ τ * x ^ 2 := by positivity
  have hρD : ρ * D ≤ Q * D := mul_le_mul_of_nonneg_right h.le (by linarith)
  have hρx : 0 ≤ ρ * x ^ 2 := by positivity
  have hlow := mul_le_mul_of_nonneg_left hD1 hρ
  -- What is off by a part of the result is off by no more than a part of the bound.
  have hbound : ρ * x ^ 2 ≤
      8 / 7 * (|l - g| + 5 * (η * (l + g)) + 7 / 2 * (τ * x ^ 2) + 7 * (η * |l - g|)) := by
    have := le_abs_self (l - g)
    have := mul_le_mul_of_nonneg_left hηx hρ
    linarith
  have hpart := mul_le_mul_of_nonneg_left hbound hη0.le
  have := mul_le_mul_of_nonneg_right hη hηs
  have := mul_le_mul_of_nonneg_right hη hηa
  have := mul_le_mul_of_nonneg_right hη hτx
  linarith

theorem sub_le_mul_sq_of_quotient_le (hρ : 0 ≤ ρ) (h : Q ≤ ρ) : l - g ≤
    ρ * x ^ 2 + (5 * (η * (l + g)) + 30 * (η * |l - g|) + 4 * (τ * x ^ 2)) := by
  have hx2 : 0 < x ^ 2 := by positivity
  have hηx := mul_le_mul_of_nonneg_right hη hx2.le
  obtain ⟨hD1, hD2⟩ := abs_le.mp hD
  obtain ⟨hlow, -⟩ := abs_le.mp (abs_quotient_sub_le hη0 hη hτ0 hx hs hD hN hQ)
  have hηs : 0 ≤ η * (l + g) := by positivity
  have hηa : 0 ≤ η * |l - g| := by positivity
  have hτx : 0 ≤ τ * x ^ 2 := by positivity
  rcases le_or_gt (l - g) (ρ * x ^ 2) with hle | hgt
  · linarith
  · have hρD : Q * D ≤ ρ * D := mul_le_mul_of_nonneg_right h (by linarith)
    have hhigh := mul_le_mul_of_nonneg_left hD2 hρ
    have hpart := mul_le_mul_of_nonneg_left (hgt.le.trans (le_abs_self _)) hη0.le
    linarith

end Quotient

/-! ### The size of the error -/

variable {f : Format} {ρ l X x : ℝ}

/-- The size from which on the sign of the computed slope is right. -/
noncomputable def slopeError (f : Format) (l x : ℝ) : ℝ :=
  5 * (f.precision * (l + Real.log (1 + x))) + 30 * (f.precision * |l - Real.log (1 + x)|) +
    4 * (f.quantum * x ^ 2)

theorem slopeError_nonneg (hl : 0 ≤ l) (hx : 0 ≤ x) : 0 ≤ slopeError f l x := by
  have hpos := f.precision_pos
  have hquantum := f.quantum_pos
  have hg := Real.log_nonneg (by linarith : 1 ≤ 1 + x)
  unfold slopeError
  positivity

theorem slopeError_le (hl : 0 ≤ l) (hx : 0 ≤ x) : slopeError f l x ≤
    35 * (f.precision * (l + Real.log (1 + x))) + 4 * (f.quantum * x ^ 2) := by
  have hg := Real.log_nonneg (by linarith : 1 ≤ 1 + x)
  have habs : |l - Real.log (1 + x)| ≤ l + Real.log (1 + x) := by
    rw [abs_le]
    constructor <;> linarith
  have := mul_le_mul_of_nonneg_left habs f.precision_pos.le
  unfold slopeError
  linarith

section Size

variable (hl : 0 ≤ l) (hρ : 0 ≤ ρ) (hx : 0 < x) (hfar : f.quantum * x ^ 2 ≤ 20 * f.precision)
  (hhigh : l - Real.log (1 + x) ≤ ρ * x ^ 2 + slopeError f l x)

include hfar in
theorem quantum_mul_sq_le (hX : 0 ≤ X) (hXx : X ≤ x) :
    f.quantum * X ^ 2 ≤ 20 * (f.precision * X) := by
  have hquantum := f.quantum_pos
  rcases le_or_gt 1 X with hone | hone
  · have hsq := mul_le_mul_of_nonneg_left (pow_le_pow_left₀ hX hXx 2) hquantum.le
    have := mul_le_mul_of_nonneg_left hone f.precision_pos.le
    linarith
  · have hsq : X ^ 2 ≤ X := by nlinarith
    have := mul_le_mul_of_nonneg_left hsq hquantum.le
    have := mul_le_mul_of_nonneg_right f.quantum_le_precision hX
    have := mul_nonneg f.precision_pos.le hX
    linarith

include hl hρ hx hfar hhigh

omit hfar in
theorem log_delta_le :
    l ≤ 1001 / 1000 * (ρ * x ^ 2 + Real.log (1 + x) + 4 * (f.quantum * x ^ 2)) := by
  have hle := slopeError_le (f := f) hl hx.le
  have hg := Real.log_nonneg (by linarith : 1 ≤ 1 + x)
  have := f.precision_mul_le (by linarith : 0 ≤ l + Real.log (1 + x))
  have : 0 ≤ ρ * x ^ 2 := by positivity
  have := mul_nonneg f.quantum_pos.le (sq_nonneg x)
  linarith

theorem slopeError_le_mul :
    slopeError f l x ≤ (40 * (f.precision * (ρ * x)) + 200 * f.precision) * x := by
  have hle := slopeError_le (f := f) hl hx.le
  have hquantum := quantum_mul_sq_le hfar hx.le le_rfl
  have hdelta := log_delta_le hl hρ hx hhigh
  have hlog := Real.log_le_sub_one_of_pos (by linarith : 0 < 1 + x)
  have hsum : l + Real.log (1 + x) ≤ 1001 / 1000 * (ρ * x ^ 2) + 3 * x := by
    have := f.precision_mul_le hx.le
    linarith
  have := mul_le_mul_of_nonneg_left hsum f.precision_pos.le
  have : 0 ≤ f.precision * (ρ * x ^ 2) := mul_nonneg f.precision_pos.le (by positivity)
  have := mul_nonneg f.precision_pos.le hx.le
  linarith

variable (hXx : X ≤ x) (hX : 0 < X) (htwice : x ≤ 2 * X)
include hXx hX htwice

theorem slopeError_prev_le_mul :
    slopeError f l X ≤ (80 * (f.precision * (ρ * x)) + 200 * f.precision) * X := by
  have hle := slopeError_le (f := f) hl hX.le
  have hquantum := quantum_mul_sq_le hfar hX.le hXx
  have hquantum' := quantum_mul_sq_le hfar hx.le le_rfl
  have hdelta := log_delta_le hl hρ hx hhigh
  have hlog := Real.log_le_sub_one_of_pos (by linarith : 0 < 1 + x)
  have hlog' := Real.log_le_sub_one_of_pos (by linarith : 0 < 1 + X)
  have hloss : ρ * x ^ 2 ≤ 2 * (ρ * x * X) := by
    have := mul_le_mul_of_nonneg_left htwice (mul_nonneg hρ hx.le)
    linarith
  have hsum : l + Real.log (1 + X) ≤ 1001 / 500 * (ρ * x * X) + 10 / 3 * X := by
    have := f.precision_mul_le hx.le
    linarith
  have := mul_le_mul_of_nonneg_left hsum f.precision_pos.le
  have : 0 ≤ f.precision * (ρ * x * X) := mul_nonneg f.precision_pos.le (by positivity)
  have := mul_nonneg f.precision_pos.le hX.le
  linarith

/-- The error is small enough for the slope to be negative at half of the order. -/
theorem slopeError_prev_le (hbits : f.precision * Real.log (1 + X) ≤ 1 / 10000) :
    slopeError f l X ≤ 3 / 4 * (ρ * X ^ 2) + X / (2 + 2 * X) := by
  have hle := slopeError_le (f := f) hl hX.le
  have hquantum := quantum_mul_sq_le hfar hX.le hXx
  have hdelta := log_delta_le hl hρ hx hhigh
  have hg := Real.log_nonneg (by linarith : 1 ≤ 1 + X)
  have hsq : x ^ 2 ≤ 4 * X ^ 2 := by
    have := pow_le_pow_left₀ hx.le htwice 2
    linarith
  have hlog : Real.log (1 + x) ≤ 2 * Real.log (1 + X) := by
    rw [← Real.log_rpow (by linarith), Real.rpow_ofNat]
    apply Real.log_le_log (by linarith)
    linarith [sq_nonneg X]
  have hρsq := mul_le_mul_of_nonneg_left hsq hρ
  have hτsq := mul_le_mul_of_nonneg_left hsq f.quantum_pos.le
  have hτX := mul_nonneg f.quantum_pos.le (sq_nonneg X)
  have hρX : 0 ≤ ρ * X ^ 2 := by positivity
  have hsum : l + Real.log (1 + X) ≤
      1001 / 250 * (ρ * X ^ 2) + 4 * Real.log (1 + X) + 17 * (f.quantum * X ^ 2) := by
    linarith
  have hscaled := mul_le_mul_of_nonneg_left hsum f.precision_pos.le
  have := f.precision_mul_le hρX
  have := f.precision_mul_le hτX
  have hrest : 140 * (f.precision * Real.log (1 + X)) + 5 * (f.quantum * X ^ 2) ≤
      X / (2 + 2 * X) := by
    rw [le_div_iff₀ (by linarith)]
    have hlog' := Real.log_le_sub_one_of_pos (by linarith : 0 < 1 + X)
    have hlogη := mul_le_mul_of_nonneg_left hlog' f.precision_pos.le
    have := f.precision_le
    have := f.precision_mul_le hX.le
    rcases le_or_gt 1 X with hone | hone
    · have hτ : f.quantum * X ^ 2 ≤ 1 / 10000 := by
        have := mul_le_mul_of_nonneg_left (pow_le_pow_left₀ hX.le hXx 2) f.quantum_pos.le
        linarith
      have := mul_le_mul_of_nonneg_right
        (by linarith : 140 * (f.precision * Real.log (1 + X)) + 5 * (f.quantum * X ^ 2) ≤ 1 / 50)
        (by linarith : 0 ≤ 2 + 2 * X)
      linarith
    · have hηX := mul_nonneg f.precision_pos.le hX.le
      have := mul_le_mul_of_nonneg_right
        (by linarith : 140 * (f.precision * Real.log (1 + X)) + 5 * (f.quantum * X ^ 2) ≤
          240 * (f.precision * X)) (by linarith : 0 ≤ 2 + 2 * X)
      have := mul_le_mul_of_nonneg_left (by linarith : 2 + 2 * X ≤ 4) hηX
      linarith
  linarith

end Size

end DifferentialPrivacy
