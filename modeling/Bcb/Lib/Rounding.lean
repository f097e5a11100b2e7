import Mathlib.Algebra.Order.Field.Rat
import Mathlib.Data.Rat.Floor
import Mathlib.Data.Set.Basic
import Mathlib.Tactic.Linarith
import Mathlib.Tactic.NormNum

/-! Arithmetic that rounds, for every way of rounding. -/

namespace Bcb.Lib

/-- A number that is kept, on the same side of every other one as the exact result. -/
structure Rounds (F : Set ℚ) (x r : ℚ) : Prop where
  mem : r ∈ F
  le : ∀ f ∈ F, x ≤ f → r ≤ f
  ge : ∀ f ∈ F, f ≤ x → f ≤ r

/-- The numbers that are kept, half the integers up to `2^53` among them, and the operations on
them.  The exponent has no upper end. -/
structure Doubles where
  nums : Set ℚ
  half_mem : ∀ n : Nat, n ≤ 2 ^ 53 → (n / 2 : ℚ) ∈ nums
  add : ℚ → ℚ → ℚ
  mul : ℚ → ℚ → ℚ
  div : ℚ → ℚ → ℚ
  add_rounds : ∀ x y, Rounds nums (x + y) (add x y)
  mul_rounds : ∀ x y, Rounds nums (x * y) (mul x y)
  div_rounds : ∀ x y, Rounds nums (x / y) (div x y)

namespace Doubles

/-- Nothing is lost. -/
def exact : Doubles where
  nums := Set.univ
  half_mem _ _ := Set.mem_univ _
  add x y := x + y
  mul x y := x * y
  div x y := x / y
  add_rounds _ _ := ⟨Set.mem_univ _, fun _ _ h => h, fun _ _ h => h⟩
  mul_rounds _ _ := ⟨Set.mem_univ _, fun _ _ h => h, fun _ _ h => h⟩
  div_rounds _ _ := ⟨Set.mem_univ _, fun _ _ h => h, fun _ _ h => h⟩

variable (D : Doubles) {x y r : ℚ}

theorem natCast_mem {n : Nat} (h : n ≤ 2 ^ 52) : (n : ℚ) ∈ D.nums := by
  have hmem := D.half_mem (2 * n) (by omega)
  rwa [Nat.cast_mul, Nat.cast_ofNat, mul_div_cancel_left₀ _ (by norm_num)] at hmem

theorem zero_mem : (0 : ℚ) ∈ D.nums := by
  have h := D.natCast_mem (n := 0) (by norm_num)
  rwa [Nat.cast_zero] at h

theorem one_mem : (1 : ℚ) ∈ D.nums := by
  have h := D.natCast_mem (n := 1) (by norm_num)
  rwa [Nat.cast_one] at h

variable {D}

theorem nonneg_of_rounds (h : Rounds D.nums x r) (hx : 0 ≤ x) : 0 ≤ r := h.ge 0 D.zero_mem hx

theorem nonneg_add (hx : 0 ≤ x) (hy : 0 ≤ y) : 0 ≤ D.add x y :=
  nonneg_of_rounds (D.add_rounds x y) (by linarith)

theorem nonneg_mul (hx : 0 ≤ x) (hy : 0 ≤ y) : 0 ≤ D.mul x y :=
  nonneg_of_rounds (D.mul_rounds x y) (mul_nonneg hx hy)

theorem nonneg_div (hx : 0 ≤ x) (hy : 0 ≤ y) : 0 ≤ D.div x y :=
  nonneg_of_rounds (D.div_rounds x y) (div_nonneg hx hy)

theorem quotient_le (hy : 0 < y) (hxy : x ≤ y) : D.div x y ≤ 1 :=
  (D.div_rounds x y).le 1 D.one_mem ((div_le_one hy).2 hxy)

theorem le_add_left (hx : x ∈ D.nums) (hy : 0 ≤ y) : x ≤ D.add x y :=
  (D.add_rounds x y).ge x hx (by linarith)

theorem le_add_right (hy : y ∈ D.nums) (hx : 0 ≤ x) : y ≤ D.add x y :=
  (D.add_rounds x y).ge y hy (by linarith)

end Doubles

end Bcb.Lib
