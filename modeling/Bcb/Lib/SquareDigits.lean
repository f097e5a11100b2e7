import Mathlib.Analysis.SpecialFunctions.Log.Base
import Mathlib.Tactic.Ring
import Mathlib.Tactic.Linarith

/-! The digits of a binary logarithm by squaring, where nothing is rounded: each turn doubles the
logarithm of the mantissa, and moves its whole part to the digits. -/

namespace Bcb.Lib.SquareDigits

open Real

/-- One turn, on the mantissa, the digits and what the next digit is worth. -/
def turn (s : ℚ × ℚ × ℚ) : ℚ × ℚ × ℚ :=
  if 2 ≤ s.1 * s.1 then (s.1 * s.1 * (1 / 2), s.2.1 + s.2.2, s.2.2 * (1 / 2))
  else (s.1 * s.1, s.2.1, s.2.2 * (1 / 2))

/-- After `q` digits of the logarithm `L`. -/
structure Known (L : ℝ) (q : Nat) (s : ℚ × ℚ × ℚ) : Prop where
  low : 1 ≤ s.1
  high : s.1 < 2
  worth : s.2.2 = 1 / 2 ^ (q + 1)
  value : (s.2.1 : ℝ) + 1 / 2 ^ q * logb 2 s.1 = L

variable {L : ℝ} {q : Nat} {s : ℚ × ℚ × ℚ} {x : ℚ}

theorem Known.start (h1 : 1 ≤ x) (h2 : x < 2) : Known (logb 2 x) 0 (x, 0, 1 / 2) :=
  ⟨h1, h2, by norm_num, by norm_num⟩

theorem Known.turn (h : Known L q s) : Known L (q + 1) (turn s) := by
  obtain ⟨x, frac, w⟩ := s
  obtain ⟨hlow, hhigh, hworth, hvalue⟩ := h
  dsimp only at hlow hhigh hworth hvalue
  have hx : (0 : ℝ) < x := by exact_mod_cast zero_lt_one.trans_le hlow
  have hsq : logb 2 ((x : ℝ) * x) = 2 * logb 2 x := by
    rw [logb_mul hx.ne' hx.ne']
    ring
  have hpow : (1 : ℝ) / 2 ^ q = 2 * (1 / 2 ^ (q + 1)) := by
    rw [pow_succ]
    field_simp
  have hw : w * (1 / 2) = 1 / 2 ^ (q + 1 + 1) := by
    rw [hworth, pow_succ _ (q + 1)]
    field_simp
  rw [SquareDigits.turn]
  dsimp only
  split_ifs with hbig
  · have hhalf : logb 2 ((x : ℝ) * x * (1 / 2)) = 2 * logb 2 x - 1 := by
      rw [mul_one_div, logb_div (mul_pos hx hx).ne' two_ne_zero, hsq,
        logb_self_eq_one one_lt_two]
    refine ⟨by linarith, by nlinarith, hw, ?_⟩
    rw [← hvalue, hpow, hworth]
    push_cast
    rw [hhalf]
    ring
  · refine ⟨by nlinarith, not_le.1 hbig, hw, ?_⟩
    rw [← hvalue, hpow]
    push_cast
    rw [hsq]
    ring

theorem Known.iterate (h : Known L q s) (n : Nat) :
    Known L (q + n) (SquareDigits.turn^[n] s) := by
  induction n with
  | zero => exact h
  | succ n ih =>
    rw [Function.iterate_succ_apply']
    exact ih.turn

theorem Known.near (h : Known L q s) : (s.2.1 : ℝ) ≤ L ∧ L < s.2.1 + 1 / 2 ^ q := by
  have hlow : (1 : ℝ) ≤ s.1 := by exact_mod_cast h.low
  have hhigh : (s.1 : ℝ) < 2 := by exact_mod_cast h.high
  have hunit : (0 : ℝ) < 1 / 2 ^ q := by positivity
  have h0 : 0 ≤ logb 2 (s.1 : ℝ) := logb_nonneg one_lt_two hlow
  have h1 : logb 2 (s.1 : ℝ) < 1 := by
    rw [logb_lt_iff_lt_rpow one_lt_two (zero_lt_one.trans_le hlow), rpow_one]
    exact hhigh
  rw [← h.value]
  exact ⟨by nlinarith, by nlinarith⟩

end Bcb.Lib.SquareDigits
