import Mathlib.Data.List.Induction
import Mathlib.Tactic.Common

namespace Bcb.Lib

variable {α : Type}

/-- Each element with the next one. -/
def steps (l : List α) : List (α × α) := l.zip l.tail

@[simp] theorem steps_concat (l : List α) (a : α) :
    steps (l ++ [a]) = steps l ++ (l.getLast?.map fun p => (p, a)).toList := by
  induction l with
  | nil => rfl
  | cons x l ih =>
    cases l with
    | nil => rfl
    | cons y l => exact congrArg ((x, y) :: ·) ih

theorem steps_getLast? (l : List α) :
    (steps l).getLast? = l.dropLast.getLast?.bind fun p => l.getLast?.map fun q => (p, q) := by
  induction l using List.reverseRecOn with
  | nil => rfl
  | append_singleton l a _ =>
    rw [steps_concat, List.dropLast_concat, List.getLast?_concat]
    cases hl : l.getLast? with
    | none =>
      rw [List.getLast?_eq_none_iff.1 hl]
      rfl
    | some p => exact List.getLast?_concat

end Bcb.Lib
