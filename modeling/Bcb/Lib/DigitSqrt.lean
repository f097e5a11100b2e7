import Mathlib.Algebra.Order.Ring.Nat
import Mathlib.Data.Nat.Sqrt
import Mathlib.Tactic.Linarith
import Mathlib.Tactic.Ring

namespace Bcb.Lib.DigitSqrt

/-- The digits of the root of `X` from the `k`-th on are known: they make up a multiple `a` of
`2^k`.  `x` is what is left of `X`, and `r` is `a` as the test of the next digit has it. -/
structure Digits (X k x r : Nat) : Prop where
  root : ∃ a, r = a * 2 ^ k ∧ x + a * a = X ∧ X < (a + 2 ^ k) * (a + 2 ^ k)

variable {X k x r : Nat}

theorem Digits.start (h : X < 4 ^ k) : Digits X k X 0 where
  root := by
    refine ⟨0, (Nat.zero_mul _).symm, Nat.add_zero X, ?_⟩
    rwa [Nat.zero_add, ← pow_add, ← two_mul, pow_mul]

theorem four_pow (k : Nat) : 4 ^ k = 2 ^ k * 2 ^ k := mul_pow 2 2 k

theorem square_digit (a k : Nat) :
    (a + 2 ^ k) * (a + 2 ^ k) = a * a + (a * 2 ^ (k + 1) + 4 ^ k) := by
  rw [four_pow, pow_succ]
  ring

theorem halve_digits (a k : Nat) : a * 2 ^ (k + 1) / 2 = a * 2 ^ k := by
  rw [pow_succ, ← mul_assoc, Nat.mul_div_cancel _ Nat.two_pos]

theorem Digits.one (h : Digits X (k + 1) x r) (hle : r + 4 ^ k ≤ x) :
    Digits X k (x - (r + 4 ^ k)) (r / 2 + 4 ^ k) where
  root := by
    obtain ⟨a, rfl, hx, hlt⟩ := h.root
    refine ⟨a + 2 ^ k, ?_, ?_, ?_⟩
    · rw [halve_digits, four_pow, ← Nat.add_mul]
    · rw [square_digit]
      omega
    · have hstep : a + 2 ^ k + 2 ^ k = a + 2 ^ (k + 1) := by ring
      rwa [hstep]

theorem Digits.zero (h : Digits X (k + 1) x r) (hlt : x < r + 4 ^ k) : Digits X k x (r / 2) where
  root := by
    obtain ⟨a, rfl, hx, -⟩ := h.root
    refine ⟨a, halve_digits a k, hx, ?_⟩
    rw [square_digit]
    omega

theorem Digits.sqrt (h : Digits X 0 x r) : r = Nat.sqrt X := by
  obtain ⟨a, rfl, hx, hlt⟩ := h.root
  rw [pow_zero, Nat.mul_one]
  rw [pow_zero] at hlt
  exact Nat.eq_sqrt.2 ⟨by omega, hlt⟩

end Bcb.Lib.DigitSqrt
