import Bcb.Prior.LandmarkIndex
import Bcb.Prior.Tables

namespace Bcb.Prior

open Bt

variable {B : Build} {im : Image} {p : BcbPrior}

/-- The smallest of the first `k` places that holds `c`, or `none` where none does. -/
def FirstAt (ctx : Nat → List UInt8) (k : Nat) (c : List UInt8) : Option Nat → Prop
  | some i => i < k ∧ ctx i = c ∧ ∀ j < i, ctx j ≠ c
  | none => ∀ j < k, ctx j ≠ c

theorem firstAt_find (ctx : Nat → List UInt8) (k : Nat) (c : List UInt8) :
    FirstAt ctx k c ((List.range k).find? fun i => ctx i = c) := by
  cases hfind : (List.range k).find? fun i => ctx i = c with
  | none =>
    intro j hj hc
    have hne := List.find?_eq_none.1 hfind j (List.mem_range.2 hj)
    exact hne (decide_eq_true hc)
  | some i =>
    obtain ⟨hsame, hmem, hbefore⟩ := List.find?_range_eq_some.1 hfind
    refine ⟨List.mem_range.1 hmem, of_decide_eq_true hsame, ?_⟩
    intro j hj hc
    have hne := hbefore j hj
    rw [decide_eq_true hc] at hne
    exact Bool.false_ne_true hne

/-- Whatever the landmarks of an accepted image are, and however they collide, a lookup ends with
the first that has the context. -/
theorem lmLookup_first (h : priorParse B im = .ok (some p)) (hk : p.lmK ≤ 2 ^ 31)
    (c : List UInt8) : ∃ found, lmLookup p.toLandmarks c = .ok found ∧
      FirstAt (lmBytes im (header im)) p.lmK c found := by
  have hlm := priorParse_landmarks h
  refine ⟨_, lmLookup_eq hlm.read hlm.lt hlm.index c, ?_⟩
  rw [Nat.min_eq_left hk]
  exact firstAt_find _ _ _

/-- Three landmarks of one byte, the first of them twice. -/
def twice : Registered :=
  { Registered.none with
    lmN := 1
    lmK := 3
    lmCtx := fun k _ => if k = 2 then 98 else 97
    lmCum := fun _ _ => 64
    lmN_mem := fun _ => ⟨le_rfl, by decide⟩
    lmK_lt := by decide }

theorem lmLookup_first_twice : ∃ im p, priorParse .plain im = .ok (some p) ∧ p.lmK = 3 ∧
    (List.range 3).map (lmBytes im (header im)) = [[97], [97], [98]] ∧
    ∃ found, lmLookup p.toLandmarks [97] = .ok found ∧
      FirstAt (lmBytes im (header im)) p.lmK [97] found := by
  obtain ⟨g, -, -, -, hloads⟩ := aba_loads
  obtain ⟨file, p, -, hload, hback⟩ := hloads twice
  have hk : p.lmK = 3 := hback.lmK
  have hbytes : ∀ k < 3, lmBytes (.ofList file) (header (.ofList file)) k =
      (List.range 1).map (twice.lmCtx k) := by
    intro k hlt
    have hread := (priorParse_landmarks hload).read k (hk.symm ▸ hlt)
    exact Except.ok.inj (hread.symm.trans (hback.lmCtx k hlt))
  refine ⟨_, p, hload, hk, ?_, lmLookup_first hload (by omega) [97]⟩
  rw [List.map_congr_left fun k hlt => hbytes k (List.mem_range.1 hlt)]
  rfl

end Bcb.Prior
