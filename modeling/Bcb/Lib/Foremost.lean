import Mathlib.Data.List.Sort
import Mathlib.Data.List.Nodup
import Mathlib.Tactic.Common

namespace Bcb.Lib.Foremost

variable {α β : Type} {r : α → α → Prop} {k : Nat} {l : List α} {x y : α}

/-- A sort by `r`, which may leave the elements that `r` does not tell apart in any order. -/
structure Sorting (r : α → α → Prop) where
  sort : List α → List α
  perm : ∀ l, (sort l).Perm l
  sorted : ∀ l, (sort l).Pairwise r

/-- The sort that leaves them in place. -/
def Sorting.stable (r : α → α → Prop) [DecidableRel r] [Std.Total r] [IsTrans α r] :
    Sorting r where
  sort := List.insertionSort r
  perm := List.perm_insertionSort r
  sorted := List.pairwise_insertionSort r

@[simp] theorem Sorting.length_sort (S : Sorting r) (l : List α) :
    (S.sort l).length = l.length :=
  (S.perm l).length_eq

@[simp] theorem Sorting.mem_sort (S : Sorting r) : x ∈ S.sort l ↔ x ∈ l :=
  (S.perm l).mem_iff

variable (S : Sorting r)

/-- The `k` elements of `l` that come first. -/
def foremost (k : Nat) (l : List α) : List α := (S.sort l).take k

@[simp] theorem foremost_length (k : Nat) (l : List α) :
    (foremost S k l).length = min k l.length := by
  rw [foremost, List.length_take, S.length_sort]

theorem mem_of_mem_foremost (h : x ∈ foremost S k l) : x ∈ l :=
  S.mem_sort.1 (List.mem_of_mem_take h)

theorem mem_foremost_of_le (hk : l.length ≤ k) (h : x ∈ l) : x ∈ foremost S k l := by
  rw [foremost, List.take_of_length_le (by rwa [S.length_sort])]
  exact S.mem_sort.2 h

theorem foremost_map_nodup {f : α → β} (h : (l.map f).Nodup) : ((foremost S k l).map f).Nodup := by
  have hsorted : ((S.sort l).map f).Nodup := ((S.perm l).map f).nodup_iff.2 h
  exact hsorted.sublist ((List.take_sublist k _).map f)

theorem foremost_pairwise (k : Nat) (l : List α) : (foremost S k l).Pairwise r :=
  (S.sorted l).sublist (List.take_sublist k _)

theorem foremost_before (hx : x ∈ l) (hout : x ∉ foremost S k l) (hy : y ∈ foremost S k l) :
    r y x := by
  have hsorted := S.sorted l
  have hmem : x ∈ S.sort l := S.mem_sort.2 hx
  rw [← List.take_append_drop k (S.sort l)] at hsorted hmem
  have hdrop : x ∈ (S.sort l).drop k := (List.mem_append.1 hmem).resolve_left hout
  exact (List.pairwise_append.1 hsorted).2.2 y hy x hdrop

end Bcb.Lib.Foremost
