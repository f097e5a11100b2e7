import Mathlib.Analysis.Complex.ExponentialBounds
import Mathlib.Analysis.SpecialFunctions.Log.Base
import Mathlib.Tactic.Ring
import Mathlib.Tactic.Linarith

/-! Binary logarithms by repeated squaring of a mantissa with `f` bits after the point.
Each turn doubles what is known and what is lost, and loses one rounding more. -/

namespace Bcb.Lib.SquareLog

open Real

/-- One turn: the mantissa is squared, and where that passes 2 it is halved and the digit is 1. -/
def turn (f : Nat) (s : Nat × Nat) : Nat × Nat :=
  let m := s.1 * s.1 / 2 ^ f
  if 2 ^ (f + 1) ≤ m then (m / 2, 2 * s.2 + 1) else (m, 2 * s.2)

/-- The logarithm that a mantissa stands for. -/
noncomputable def mantissaLog (f m : Nat) : ℝ := logb 2 (m / 2 ^ f)

/-- What rounding a mantissa down loses at most. -/
noncomputable def ulpLog (f : Nat) : ℝ := logb 2 (1 + 1 / 2 ^ f)

theorem ulpLog_le (f : Nat) : ulpLog f ≤ 3 / (2 * 2 ^ f) := by
  have hlog2 : 2 / 3 < log 2 := lt_trans (by norm_num) log_two_gt_d9
  have hlog : log (1 + 1 / 2 ^ f) ≤ 1 / 2 ^ f := by
    have h := log_le_sub_one_of_pos (x := 1 + 1 / 2 ^ f) (by positivity)
    linarith
  rw [ulpLog, logb, div_le_iff₀ (by linarith)]
  calc log (1 + 1 / 2 ^ f) ≤ 1 / 2 ^ f := hlog
    _ = 3 / (2 * 2 ^ f) * (2 / 3) := by field_simp
    _ ≤ 3 / (2 * 2 ^ f) * log 2 := by gcongr

/-- `s` knows `2^q` times the logarithm `L`, but for its mantissa's share of it and for what
`2^(q+1) - 1` roundings have lost. -/
structure Known (f : Nat) (L : ℝ) (q : Nat) (s : Nat × Nat) : Prop where
  low : 2 ^ f ≤ s.1
  high : s.1 < 2 ^ (f + 1)
  below : s.2 + mantissaLog f s.1 ≤ 2 ^ q * L
  above : 2 ^ q * L ≤ s.2 + mantissaLog f s.1 + (2 ^ (q + 1) - 1) * ulpLog f

variable {f q : Nat} {L : ℝ} {s : Nat × Nat}

/-- A real mantissa and the natural number below it. -/
theorem mantissaLog_floor {m : Nat} {y : ℝ} (hm : 2 ^ f ≤ m) (hle : (m : ℝ) ≤ y) (hlt : y < m + 1) :
    mantissaLog f m ≤ logb 2 (y / 2 ^ f) ∧ logb 2 (y / 2 ^ f) ≤ mantissaLog f m + ulpLog f := by
  have hf : (0 : ℝ) < 2 ^ f := by positivity
  have hmf : (2 : ℝ) ^ f ≤ m := by exact_mod_cast hm
  have hmpos : (0 : ℝ) < m := lt_of_lt_of_le hf hmf
  refine ⟨logb_le_logb_of_le one_lt_two (div_pos hmpos hf) (by gcongr), ?_⟩
  have hypos : 0 < y := lt_of_lt_of_le hmpos hle
  have hmul : y / 2 ^ f ≤ m / 2 ^ f * (1 + 1 / 2 ^ f) := by
    have hone : (1 : ℝ) ≤ m / 2 ^ f := (one_le_div hf).2 hmf
    have hup : y ≤ m + m / 2 ^ f := by linarith
    calc y / 2 ^ f ≤ (m + m / 2 ^ f) / 2 ^ f := by gcongr
      _ = m / 2 ^ f * (1 + 1 / 2 ^ f) := by ring
  calc logb 2 (y / 2 ^ f) ≤ logb 2 (m / 2 ^ f * (1 + 1 / 2 ^ f)) :=
        logb_le_logb_of_le one_lt_two (div_pos hypos hf) hmul
    _ = mantissaLog f m + ulpLog f := logb_mul (div_pos hmpos hf).ne' (by positivity)

theorem mantissaLog_nonneg {m : Nat} (h : 2 ^ f ≤ m) : 0 ≤ mantissaLog f m := by
  apply logb_nonneg one_lt_two
  rw [one_le_div (by positivity)]
  exact_mod_cast h

theorem mantissaLog_lt_one {m : Nat} (h0 : 2 ^ f ≤ m) (h : m < 2 ^ (f + 1)) :
    mantissaLog f m < 1 := by
  have hf : (0 : ℝ) < 2 ^ f := by positivity
  have hmf : (2 : ℝ) ^ f ≤ m := by exact_mod_cast h0
  have hlt : (m : ℝ) < 2 * 2 ^ f := by
    rw [← pow_succ']
    exact_mod_cast h
  have hpos : (0 : ℝ) < m / 2 ^ f := div_pos (lt_of_lt_of_le hf hmf) hf
  rw [mantissaLog, logb_lt_iff_lt_rpow one_lt_two hpos, rpow_one, div_lt_iff₀ hf]
  exact hlt

theorem logb_square {m : Nat} (h : 2 ^ f ≤ m) :
    logb 2 ((m : ℝ) * m / 2 ^ f / 2 ^ f) = 2 * mantissaLog f m := by
  have hmf : (2 : ℝ) ^ f ≤ m := by exact_mod_cast h
  have hpos : (0 : ℝ) < m / 2 ^ f := div_pos (lt_of_lt_of_le (by positivity) hmf) (by positivity)
  have hsq : (m : ℝ) * m / 2 ^ f / 2 ^ f = m / 2 ^ f * (m / 2 ^ f) := by
    field_simp
  rw [hsq, logb_mul hpos.ne' hpos.ne', mantissaLog]
  ring

theorem logb_half {y : ℝ} (h : 0 < y) : logb 2 (y / 2 / 2 ^ f) = logb 2 (y / 2 ^ f) - 1 := by
  have hy : y / 2 / 2 ^ f = y / 2 ^ f / 2 := by ring
  rw [hy, logb_div (by positivity) (by norm_num), logb_self_eq_one one_lt_two]

theorem cast_floor (a b : Nat) (hb : 0 < b) :
    ((a / b : Nat) : ℝ) ≤ a / b ∧ (a : ℝ) / b < (a / b : Nat) + 1 := by
  have hpos : (0 : ℝ) < b := by exact_mod_cast hb
  constructor
  · exact Nat.cast_div_le
  · rw [div_lt_iff₀ hpos]
    exact_mod_cast Nat.lt_mul_of_div_lt (Nat.lt_succ_self (a / b)) hb

theorem Known.turn (h : Known f L q s) : Known f L (q + 1) (turn f s) := by
  obtain ⟨m, r⟩ := s
  have hlow : 2 ^ f ≤ m := h.low
  have hhigh : m < 2 ^ (f + 1) := h.high
  have hf : 0 < 2 ^ f := Nat.two_pow_pos f
  have hsqlow : 2 ^ f * 2 ^ f ≤ m * m := Nat.mul_le_mul hlow hlow
  have hm2 : 2 ^ f ≤ m * m / 2 ^ f := (Nat.le_div_iff_mul_le hf).2 hsqlow
  have hsq := logb_square hlow
  have hbelow : (r : ℝ) + mantissaLog f m ≤ 2 ^ q * L := h.below
  have habove : 2 ^ q * L ≤ r + mantissaLog f m + (2 ^ (q + 1) - 1) * ulpLog f := h.above
  have hpow : (2 : ℝ) ^ (q + 1) * L = 2 * (2 ^ q * L) := by ring
  have hloss : ((2 : ℝ) ^ (q + 1 + 1) - 1) * ulpLog f =
      2 * ((2 ^ (q + 1) - 1) * ulpLog f) + ulpLog f := by ring
  rw [SquareLog.turn]
  simp only
  split_ifs with hbig
  · -- the two roundings down are one
    have hdiv : m * m / 2 ^ f / 2 = m * m / 2 ^ (f + 1) := by
      rw [Nat.div_div_eq_div_mul, ← pow_succ]
    have hlow' : 2 ^ f ≤ m * m / 2 ^ f / 2 := by
      rw [Nat.le_div_iff_mul_le Nat.two_pos, ← pow_succ]
      exact hbig
    have hfl := cast_floor (m * m) (2 ^ (f + 1)) (Nat.two_pow_pos _)
    rw [← hdiv] at hfl
    have hcast : ((m * m : Nat) : ℝ) / (2 ^ (f + 1) : Nat) = m * m / 2 ^ f / 2 := by
      push_cast
      rw [pow_succ, div_div]
    rw [hcast] at hfl
    have hround := mantissaLog_floor hlow' hfl.1 hfl.2
    have hmpos : (0 : ℝ) < (m : ℝ) * m / 2 ^ f := by
      have : (0 : ℝ) < m := by exact_mod_cast lt_of_lt_of_le hf hlow
      positivity
    rw [logb_half hmpos, hsq] at hround
    have hhigh' : m * m / 2 ^ f / 2 < 2 ^ (f + 1) := by
      rw [hdiv, Nat.div_lt_iff_lt_mul (Nat.two_pow_pos _)]
      exact Nat.mul_lt_mul'' hhigh hhigh
    refine ⟨hlow', hhigh', ?_, ?_⟩
    · push_cast
      rw [hpow]
      linarith [hround.1]
    · push_cast
      rw [hpow, hloss]
      linarith [hround.2]
  · have hfl := cast_floor (m * m) (2 ^ f) hf
    have hcast : ((m * m : Nat) : ℝ) / (2 ^ f : Nat) = m * m / 2 ^ f := by push_cast; rfl
    rw [hcast] at hfl
    have hround := mantissaLog_floor hm2 hfl.1 hfl.2
    rw [hsq] at hround
    refine ⟨hm2, Nat.lt_of_not_le hbig, ?_, ?_⟩
    · push_cast
      rw [hpow]
      linarith [hround.1]
    · push_cast
      rw [hpow, hloss]
      linarith [hround.2]

theorem Known.iterate (h : Known f L q s) (n : Nat) :
    Known f L (q + n) ((SquareLog.turn f)^[n] s) := by
  induction n generalizing q s with
  | zero => exact h
  | succ n ih =>
    have hrun := ih h.turn
    rwa [Nat.add_right_comm, Nat.add_assoc, ← Function.iterate_succ_apply] at hrun

theorem Known.start {x : Nat} (h : 2 ^ f ≤ x) :
    Known f (logb 2 (x / 2 ^ f)) 0 (x / 2 ^ (Nat.log2 x - f), Nat.log2 x - f) := by
  have hx : x ≠ 0 := (lt_of_lt_of_le (Nat.two_pow_pos f) h).ne'
  have hlog : f ≤ Nat.log2 x := (Nat.le_log2 hx).2 h
  obtain ⟨i, hi⟩ := Nat.exists_eq_add_of_le hlog
  have hip : Nat.log2 x - f = i := by omega
  have hself := Nat.log2_self_le hx
  have hlt : x < 2 ^ (Nat.log2 x + 1) := Nat.lt_log2_self
  rw [hip]
  rw [hi, pow_add] at hself
  rw [hi, Nat.add_right_comm, pow_add] at hlt
  have hlow : 2 ^ f ≤ x / 2 ^ i := (Nat.le_div_iff_mul_le (Nat.two_pow_pos i)).2 hself
  have hfl := cast_floor x (2 ^ i) (Nat.two_pow_pos i)
  have hround := mantissaLog_floor hlow hfl.1 hfl.2
  have hxpos : (0 : ℝ) < x := by exact_mod_cast Nat.pos_of_ne_zero hx
  have hscale : logb 2 ((x : ℝ) / (2 ^ i : Nat) / 2 ^ f) = logb 2 (x / 2 ^ f) - i := by
    have hcomm : (x : ℝ) / (2 ^ i : Nat) / 2 ^ f = x / 2 ^ f / 2 ^ i := by
      push_cast
      ring
    rw [hcomm, logb_div (by positivity) (by positivity), logb_pow, logb_self_eq_one one_lt_two,
      mul_one]
  rw [hscale] at hround
  refine ⟨hlow, ?_, ?_, ?_⟩
  · exact (Nat.div_lt_iff_lt_mul (Nat.two_pow_pos i)).2 hlt
  · simp only [pow_zero, one_mul]
    linarith [hround.1]
  · simp only [pow_zero, one_mul]
    linarith [hround.2]

theorem Known.le (h : Known f L q s) : (s.2 : ℝ) ≤ 2 ^ q * L := by
  linarith [h.below, mantissaLog_nonneg h.low]

theorem Known.lt (h : Known f L q s) : 2 ^ q * L < s.2 + 1 + (2 ^ (q + 1) - 1) * ulpLog f := by
  linarith [h.above, mantissaLog_lt_one h.low h.high]

end Bcb.Lib.SquareLog
