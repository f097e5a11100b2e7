import Mathlib.Data.List.Infix
import Mathlib.Order.Nat
import Mathlib.Tactic.Common

namespace Bcb.Lib

variable {α : Type} {n : Nat} {l k : List α}

/-- The whole chunks in order; what is left over at the end is in none. -/
def chunks (n : Nat) (l : List α) : List (List α) :=
  (List.range (l.length / n)).map fun i => (l.drop (n * i)).take n

theorem chunks_single (hn : 0 < n) (h : l.length = n) : chunks n l = [l] := by
  rw [chunks, h, Nat.div_self hn]
  change [(l.drop (n * 0)).take n] = [l]
  rw [Nat.mul_zero, List.drop_zero, List.take_of_length_le h.le]

theorem chunks_append (h : n ∣ l.length) (k : List α) :
    chunks n (l ++ k) = chunks n l ++ chunks n k := by
  obtain ⟨q, hq⟩ := h
  rcases Nat.eq_zero_or_pos n with rfl | hn
  · simp [chunks]
  have hl : l.length / n = q := by rw [hq, Nat.mul_div_cancel_left _ hn]
  have hlk : (l ++ k).length / n = q + k.length / n := by
    rw [List.length_append, hq, Nat.mul_add_div hn]
  rw [chunks, chunks, chunks, hl, hlk, List.range_add, List.map_append, List.map_map]
  congr 1
  · apply List.map_congr_left
    intro i hi
    have hle : n * i + n ≤ l.length := by
      rw [hq, ← Nat.mul_succ]
      exact Nat.mul_le_mul_left _ (List.mem_range.1 hi)
    rw [List.drop_append_of_le_length (Nat.le_of_add_right_le hle), List.take_append_of_le_length]
    rw [List.length_drop]
    omega
  · apply List.map_congr_left
    intro i _
    rw [Function.comp_apply, Nat.mul_add, ← hq, ← List.drop_drop, List.drop_left]

@[simp] theorem take_chunks_length (n : Nat) (l : List α) :
    (l.take (n * (l.length / n))).length = n * (l.length / n) :=
  List.length_take_of_le (Nat.mul_div_le _ _)

@[simp] theorem chunks_take (n : Nat) (l : List α) :
    chunks n (l.take (n * (l.length / n))) = chunks n l := by
  conv_rhs => rw [← List.take_append_drop (n * (l.length / n)) l]
  rcases Nat.eq_zero_or_pos n with rfl | hn
  · simp [chunks]
  have hrest : chunks n (l.drop (n * (l.length / n))) = [] := by
    have hlt : (l.drop (n * (l.length / n))).length < n := by
      have hmod := Nat.mod_lt l.length hn
      have hdiv := Nat.div_add_mod l.length n
      rw [List.length_drop]
      omega
    rw [chunks, Nat.div_eq_of_lt hlt]
    rfl
  rw [chunks_append ⟨_, take_chunks_length n l⟩, hrest, List.append_nil]

theorem chunks_append_rest (n : Nat) (l k : List α) :
    chunks n (l ++ k) = chunks n l ++ chunks n (l.drop (n * (l.length / n)) ++ k) := by
  calc chunks n (l ++ k)
      = chunks n (l.take (n * (l.length / n)) ++ (l.drop (n * (l.length / n)) ++ k)) := by
        rw [← List.append_assoc, List.take_append_drop]
    _ = _ := by rw [chunks_append ⟨_, take_chunks_length n l⟩, chunks_take]

end Bcb.Lib
