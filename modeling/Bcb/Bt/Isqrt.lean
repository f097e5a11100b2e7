import Bcb.Bt.Luts
import Bcb.Lib.DigitSqrt

namespace Bcb.Bt

open Lib DigitSqrt

/-- The `bit` with which `k` digits of the root are left. -/
def digitBit : Nat → Nat
  | 0 => 0
  | k + 1 => 4 ^ k

@[simp] theorem digitBit_div (k : Nat) : digitBit (k + 1) / 4 = digitBit k := by
  cases k with
  | zero => rfl
  | succ k => rw [digitBit, digitBit, pow_succ, Nat.mul_div_cancel _ (by decide)]

theorem lt_of_lt_digitBit {x k : Nat} (h : x < digitBit k) : ∃ j, k = j + 1 ∧ x < 4 ^ j := by
  cases k with
  | zero => exact absurd h (Nat.not_lt_zero x)
  | succ j => exact ⟨j, rfl, h⟩

/-- Where the first loop stands, the digits it has passed are zeros. -/
def Skipped (x bit : Nat) : Prop := ∃ k ≤ 32, bit = digitBit k ∧ x < 4 ^ k

theorem Skipped.turn {x bit bit' : Nat} (h : Skipped x bit) (ht : isqrtSkipTurn x bit = some bit') :
    Skipped x bit' := by
  obtain ⟨k, hk, rfl, -⟩ := h
  rw [isqrtSkipTurn] at ht
  split_ifs at ht with hlt
  cases ht
  obtain ⟨j, rfl, hj⟩ := lt_of_lt_digitBit hlt
  exact ⟨j, Nat.le_of_succ_le hk, digitBit_div j, hj⟩

theorem isqrtSkip_skipped {x : Nat} (h : x < 2 ^ 64) (n : Nat) :
    Skipped x (Loop.run (isqrtSkipTurn x) n (2 ^ 62)) := by
  have hstart : Skipped x (2 ^ 62) := ⟨32, le_rfl, by norm_num [digitBit], h⟩
  exact Loop.run_inv (fun _ _ => Skipped.turn) n hstart

@[simp] theorem isqrtTurn_zero (x r : Nat) : isqrtTurn ⟨x, r, digitBit 0⟩ = none := rfl

theorem isqrtTurn_succ (x r k : Nat) :
    isqrtTurn ⟨x, r, digitBit (k + 1)⟩ =
      if r + 4 ^ k ≤ x then some ⟨x - (r + 4 ^ k), r / 2 + 4 ^ k, digitBit k⟩
      else some ⟨x, r / 2, digitBit k⟩ := by
  have hbit : digitBit (k + 1) ≠ 0 := (pow_pos (by decide : 0 < 4) k).ne'
  rw [isqrtTurn, if_neg hbit, digitBit_div]
  rfl

theorem isqrtTurn_run {X k n : Nat} (hn : k ≤ n) {x r : Nat} (h : Digits X k x r) :
    (Loop.run isqrtTurn n ⟨x, r, digitBit k⟩).r = Nat.sqrt X := by
  induction k generalizing n x r with
  | zero =>
    rw [Loop.run_none (isqrtTurn_zero x r)]
    exact h.sqrt
  | succ k ih =>
    obtain ⟨n, rfl⟩ := Nat.exists_eq_add_of_le' (Nat.le_trans (Nat.succ_pos k) hn)
    have hn := Nat.le_of_succ_le_succ hn
    have hturn := isqrtTurn_succ x r k
    by_cases hle : r + 4 ^ k ≤ x
    · rw [if_pos hle] at hturn
      rw [Loop.run_some hturn]
      exact ih hn (h.one hle)
    · rw [if_neg hle] at hturn
      rw [Loop.run_some hturn]
      exact ih hn (h.zero (Nat.lt_of_not_le hle))

theorem isqrt64_sqrt {x : Nat} (h : x < 2 ^ 64) : isqrt64 x = Nat.sqrt x := by
  obtain ⟨k, hk, hbit, hx⟩ := isqrtSkip_skipped h 32
  rw [isqrt64, hbit]
  exact isqrtTurn_run hk (Digits.start hx)

theorem isqrt64_bounds {x : Nat} (h : x < 2 ^ 64) :
    isqrt64 x * isqrt64 x ≤ x ∧ x < (isqrt64 x + 1) * (isqrt64 x + 1) := by
  rw [isqrt64_sqrt h]
  exact ⟨Nat.sqrt_le x, Nat.lt_succ_sqrt x⟩

theorem isqrt64_bounds_max :
    isqrt64 (2 ^ 64 - 1) * isqrt64 (2 ^ 64 - 1) ≤ 2 ^ 64 - 1 ∧
      2 ^ 64 - 1 < (isqrt64 (2 ^ 64 - 1) + 1) * (isqrt64 (2 ^ 64 - 1) + 1) :=
  isqrt64_bounds (by decide)

end Bcb.Bt
