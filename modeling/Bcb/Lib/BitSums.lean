import Mathlib.Data.Nat.Bitwise
import Mathlib.Tactic.Common

namespace Bcb.Lib.BitSums

variable {ds : List Nat} {x i : Nat}

/-- The members of `x`, each moved by every one of `ds`. -/
def shifts (ds : List Nat) (x : Nat) : Nat := ds.foldr (fun d acc => x <<< d ||| acc) 0

/-- The first `n` pages of `2^k` bits, one over the other. -/
def pages (k n x : Nat) : Nat :=
  (List.range n).foldr (fun j acc => x >>> (2 ^ k * j) ||| acc) 0 % 2 ^ 2 ^ k

theorem testBit_foldr {α : Type} {l : List α} {f : α → Nat} :
    (l.foldr (fun a acc => f a ||| acc) 0).testBit i = true ↔ ∃ a ∈ l, (f a).testBit i = true := by
  induction l with
  | nil => simp
  | cons a l ih =>
    rw [List.foldr_cons, Nat.testBit_or, Bool.or_eq_true, ih]
    simp

theorem testBit_shifts :
    (shifts ds x).testBit i = true ↔ ∃ d ∈ ds, d ≤ i ∧ x.testBit (i - d) = true := by
  rw [shifts, testBit_foldr]
  simp only [Nat.testBit_shiftLeft, Bool.and_eq_true, decide_eq_true_eq]

theorem testBit_pages {k n : Nat} (h : (pages k n x).testBit i = true) :
    ∃ j, x.testBit (2 ^ k * j + i) = true := by
  rw [pages, Nat.testBit_mod_two_pow, Bool.and_eq_true, testBit_foldr] at h
  obtain ⟨-, j, -, hj⟩ := h
  rw [Nat.testBit_shiftRight] at hj
  exact ⟨j, hj⟩

/-- The numbers that are sums of one of each list. -/
def sums (dss : List (List Nat)) : Nat := dss.foldr shifts 1

theorem testBit_sums {dss : List (List Nat)} (h : (sums dss).testBit i = true) :
    ∃ xs, List.Forall₂ (· ∈ ·) xs dss ∧ xs.sum = i := by
  induction dss generalizing i with
  | nil =>
    have h0 : i = 0 := by
      simpa [sums, Nat.testBit_one_eq_true_iff_self_eq_zero] using h
    exact ⟨[], .nil, h0.symm⟩
  | cons ds dss ih =>
    obtain ⟨d, hd, hle, hrest⟩ := testBit_shifts.1 h
    obtain ⟨xs, hxs, hsum⟩ := ih hrest
    refine ⟨d :: xs, .cons hd hxs, ?_⟩
    rw [List.sum_cons, hsum]
    exact Nat.add_sub_cancel' hle

/-- Where the pages fill up, the sums reach every remainder. -/
theorem exists_sum_mod {dss : List (List Nat)} {k n : Nat}
    (hfull : pages k n (sums dss) = 2 ^ 2 ^ k - 1) {t : Nat} (ht : t < 2 ^ k) :
    ∃ xs, List.Forall₂ (· ∈ ·) xs dss ∧ xs.sum % 2 ^ k = t := by
  have hbit : (pages k n (sums dss)).testBit t = true := by
    rw [hfull, Nat.testBit_two_pow_sub_one, decide_eq_true_eq]
    exact ht
  obtain ⟨j, hj⟩ := testBit_pages hbit
  obtain ⟨xs, hxs, hsum⟩ := testBit_sums hj
  refine ⟨xs, hxs, ?_⟩
  rw [hsum, Nat.mul_add_mod, Nat.mod_eq_of_lt ht]

end Bcb.Lib.BitSums
