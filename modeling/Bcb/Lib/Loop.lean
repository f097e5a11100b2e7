import Mathlib.Logic.Basic
import Mathlib.Tactic.Common

/-! Loops that run until a step refuses: `f` gives the next state, or `none`
at the `break`.  The number of turns is bounded, and the rules below show when
the bound is never what ends the loop. -/

universe u

namespace Bcb.Lib.Loop

variable {α : Type u} {f : α → Option α}

def run (f : α → Option α) : Nat → α → α
  | 0, a => a
  | n + 1, a => match f a with
    | none => a
    | some b => run f n b

@[simp] theorem run_zero (a : α) : run f 0 a = a := rfl

theorem run_none {a : α} (h : f a = none) (n : Nat) : run f n a = a := by
  cases n with
  | zero => rfl
  | succ n => simp [run, h]

theorem run_some {a b : α} (h : f a = some b) (n : Nat) :
    run f (n + 1) a = run f n b := by simp [run, h]

/-- The invariant rule. -/
theorem run_inv {P : α → Prop} (hstep : ∀ a b, P a → f a = some b → P b)
    (n : Nat) {a : α} (h : P a) : P (run f n a) := by
  induction n generalizing a with
  | zero => exact h
  | succ n ih =>
    cases hs : f a with
    | none => rw [run_none hs]; exact h
    | some b => rw [run_some hs]; exact ih (hstep a b h hs)

/-- The counted invariant rule: `P k` holds after the `k`-th turn, and a state
reached after `m` turns is at its break.  Then `m` turns reach the break. -/
theorem run_done {P : Nat → α → Prop} {m : Nat}
    (hstep : ∀ k a b, P k a → f a = some b → P (k + 1) b)
    (hstop : ∀ a, P m a → f a = none) {k n : Nat} (hk : k + n = m) {a : α} (h : P k a) :
    f (run f n a) = none := by
  induction n generalizing k a with
  | zero => exact hstop a (by simpa [← hk] using h)
  | succ n ih =>
    cases hs : f a with
    | none => rw [run_none hs, hs]
    | some b =>
      rw [run_some hs]
      exact ih (by omega) (hstep k a b h hs)

/-- Two loops whose steps correspond under `R` end in corresponding states. -/
theorem run_rel {β : Type u} {g : β → Option β} {R : α → β → Prop}
    (hnone : ∀ a b, R a b → f a = none → g b = none)
    (hsome : ∀ a b a', R a b → f a = some a' → ∃ b', g b = some b' ∧ R a' b')
    (n : Nat) {a : α} {b : β} (h : R a b) : R (run f n a) (run g n b) := by
  induction n generalizing a b with
  | zero => exact h
  | succ n ih =>
    cases hs : f a with
    | none => rw [run_none hs, run_none (hnone a b h hs)]; exact h
    | some a' =>
      obtain ⟨b', hs', h'⟩ := hsome a b a' h hs
      rw [run_some hs, run_some hs']
      exact ih h'

end Bcb.Lib.Loop
