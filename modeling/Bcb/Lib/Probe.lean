import Mathlib.Logic.Function.Iterate
import Mathlib.Tactic.Common

/-! Searching a table along a probe sequence: `test` looks at one slot and gives the
answer of the search, or `none` to go on with the `next` slot. -/

namespace Bcb.Lib.Probe

variable {ε ι α β : Type} {stuck : ε} {next : ι → ι} {test : ι → Except ε (Option α)}

def run (stuck : ε) (next : ι → ι) (test : ι → Except ε (Option α)) : Nat → ι → Except ε α
  | 0, _ => throw stuck
  | n + 1, i => do
    match ← test i with
    | some a => return a
    | none => run stuck next test n (next i)

theorem run_stop {i : ι} {a : α} (h : test i = .ok (some a)) (n : Nat) :
    run stuck next test (n + 1) i = .ok a := by
  rw [run, h]
  rfl

theorem run_skip {i : ι} (h : test i = .ok none) (n : Nat) :
    run stuck next test (n + 1) i = run stuck next test n (next i) := by
  rw [run, h]
  rfl

theorem run_first {a : α} {j n : Nat} {i : ι} (hj : j < n)
    (hskip : ∀ k < j, test (next^[k] i) = .ok none) (hstop : test (next^[j] i) = .ok (some a)) :
    run stuck next test n i = .ok a := by
  induction j generalizing n i with
  | zero =>
    obtain ⟨m, rfl⟩ : ∃ m, n = m + 1 := ⟨n - 1, by omega⟩
    exact run_stop hstop m
  | succ j ih =>
    obtain ⟨m, rfl⟩ : ∃ m, n = m + 1 := ⟨n - 1, by omega⟩
    have h0 : test i = .ok none := hskip 0 (Nat.succ_pos j)
    rw [run_skip h0]
    apply ih (by omega)
    · intro k hk
      exact hskip (k + 1) (by omega)
    · exact hstop

theorem run_eq_ok {a : α} {n : Nat} {i : ι} (h : run stuck next test n i = .ok a) :
    ∃ j < n, (∀ k < j, test (next^[k] i) = .ok none) ∧ test (next^[j] i) = .ok (some a) := by
  induction n generalizing i with
  | zero => cases h
  | succ n ih =>
    cases ht : test i with
    | error e =>
      rw [run, ht] at h
      cases h
    | ok o =>
      cases o with
      | some b =>
        rw [run_stop ht] at h
        cases h
        exact ⟨0, Nat.succ_pos n, fun k hk => absurd hk (Nat.not_lt_zero k), ht⟩
      | none =>
        rw [run_skip ht] at h
        obtain ⟨j, hj, hskip, hstop⟩ := ih h
        refine ⟨j + 1, Nat.succ_lt_succ hj, ?_, hstop⟩
        intro k hk
        cases k with
        | zero => exact ht
        | succ k => exact hskip k (Nat.lt_of_succ_lt_succ hk)

/-- With every slot readable and one of those in reach giving an answer, the search ends. -/
theorem run_total {n : Nat} {i : ι} (hread : ∀ k < n, ∃ o, test (next^[k] i) = .ok o)
    (hstop : ∃ k < n, ∃ a, test (next^[k] i) = .ok (some a)) :
    ∃ a, run stuck next test n i = .ok a := by
  induction n generalizing i with
  | zero =>
    obtain ⟨k, hk, -⟩ := hstop
    exact absurd hk (Nat.not_lt_zero k)
  | succ n ih =>
    obtain ⟨o, ho⟩ := hread 0 (Nat.succ_pos n)
    rw [Function.iterate_zero_apply] at ho
    cases o with
    | some a => exact ⟨a, run_stop ho n⟩
    | none =>
      rw [run_skip ho]
      apply ih
      · intro k hk
        exact hread (k + 1) (Nat.succ_lt_succ hk)
      · obtain ⟨k, hk, a, ha⟩ := hstop
        cases k with
        | zero =>
          have hnone := ho.symm.trans ha
          cases hnone
        | succ k => exact ⟨k, Nat.lt_of_succ_lt_succ hk, a, ha⟩

theorem run_stuck {n : Nat} {i : ι} (hskip : ∀ k < n, test (next^[k] i) = .ok none) :
    run stuck next test n i = throw stuck := by
  induction n generalizing i with
  | zero => rfl
  | succ n ih =>
    have h0 : test i = .ok none := hskip 0 (Nat.succ_pos n)
    rw [run_skip h0]
    exact ih fun k hk => hskip (k + 1) (Nat.succ_lt_succ hk)

theorem run_congr {test' : ι → Except ε (Option α)} {n : Nat} {i : ι}
    (h : ∀ k < n, test (next^[k] i) = test' (next^[k] i)) :
    run stuck next test n i = run stuck next test' n i := by
  induction n generalizing i with
  | zero => rfl
  | succ n ih =>
    have h0 : test i = test' i := h 0 (Nat.succ_pos n)
    have hn : run stuck next test n (next i) = run stuck next test' n (next i) :=
      ih (fun k hk => h (k + 1) (Nat.succ_lt_succ hk))
    rw [run, run, h0, hn]

theorem run_map {f : α → β} {test' : ι → Except ε (Option β)}
    (h : ∀ i, test' i = (test i).map (Option.map f)) (n : Nat) (i : ι) :
    run stuck next test' n i = (run stuck next test n i).map f := by
  induction n generalizing i with
  | zero => rfl
  | succ n ih =>
    rw [run, run, h]
    cases test i with
    | error e => rfl
    | ok o =>
      cases o with
      | none => exact ih (next i)
      | some a => rfl

/-- One step of linear probing over `N` slots. -/
def linear (N : Nat) (i : Nat) : Nat := (i + 1) % N

theorem linear_iterate {N i : Nat} (h : i < N) (k : Nat) : (linear N)^[k] i = (i + k) % N := by
  induction k with
  | zero => exact (Nat.mod_eq_of_lt h).symm
  | succ k ih =>
    rw [Function.iterate_succ_apply', ih, linear, Nat.mod_add_mod, Nat.add_assoc]

theorem linear_iterate_lt {N i : Nat} (h : i < N) (k : Nat) : (linear N)^[k] i < N := by
  rw [linear_iterate h]
  exact Nat.mod_lt _ (Nat.lt_of_le_of_lt (Nat.zero_le i) h)

theorem linear_reaches {N i j : Nat} (hi : i < N) (hj : j < N) :
    ∃ k < N, (linear N)^[k] i = j := by
  refine ⟨(j + N - i) % N, Nat.mod_lt _ (by omega), ?_⟩
  rw [linear_iterate hi, Nat.add_mod_mod]
  have hsum : i + (j + N - i) = j + N := by omega
  rw [hsum, Nat.add_mod_right, Nat.mod_eq_of_lt hj]

end Bcb.Lib.Probe
