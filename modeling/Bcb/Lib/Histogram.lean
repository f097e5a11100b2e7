import Mathlib.Data.List.Count
import Mathlib.Data.List.Range

namespace Bcb.Lib.Histogram

variable {α : Type*} [DecidableEq α] {sym : Nat → α} {lo n : Nat}

/-- Among the places from `lo` on and below `n`, those with the symbol `a`. -/
def count (sym : Nat → α) (lo n : Nat) (a : α) : Nat :=
  (List.range' lo (n - lo)).countP fun r => sym r = a

theorem count_empty (h : n ≤ lo) : count sym lo n = fun _ => 0 := by
  funext a
  rw [count, Nat.sub_eq_zero_of_le h]
  rfl

theorem count_succ (h : lo ≤ n) :
    count sym lo (n + 1) = Function.update (count sym lo n) (sym n) (count sym lo n (sym n) + 1) := by
  funext a
  rw [count, Nat.succ_sub h, List.range'_1_concat, Nat.add_sub_cancel' h, List.countP_append,
    List.countP_singleton, Function.update_apply]
  by_cases ha : a = sym n
  · subst ha
    simp [count]
  · simp [count, ha, Ne.symm ha]

theorem count_le (sym : Nat → α) (lo n : Nat) (a : α) : count sym lo n a ≤ n - lo :=
  List.countP_le_length.trans_eq List.length_range'

theorem count_congr {sym' : Nat → α} (h : ∀ r, lo ≤ r → r < n → sym r = sym' r) :
    count sym lo n = count sym' lo n := by
  funext a
  apply List.countP_congr
  intro r hr
  obtain ⟨hle, hlt⟩ := List.mem_range'_1.1 hr
  rw [h r hle (by omega)]

end Bcb.Lib.Histogram
