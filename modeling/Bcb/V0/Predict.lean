import Bcb.Bt.Formula
import Bcb.V0.SameCounts
import Mathlib.Analysis.SpecialFunctions.Exp
import Mathlib.Data.Real.Basic

/-! `predict_byte` and `bt_v4_distribution` of `bt_model.c`, their doubles read as real numbers. -/

namespace Bcb.V0

open Lib Bt RangeCoder

structure BtLevel where
  dmin : Nat
  dmax : Nat
  weight : ℚ

/-- `LEVELS`. -/
def levels : List BtLevel :=
  [⟨1, 2, 9 / 10⟩, ⟨3, 4, 13 / 10⟩, ⟨5, 8, 15 / 10⟩, ⟨9, 12, 17 / 10⟩, ⟨13, 16, 15 / 10⟩,
    ⟨17, 24, 11 / 10⟩]

/-- `p`, from the counts of the context and of the byte. -/
noncomputable def predictP (total af : UInt32) : ℝ :=
  if 0 < af then af.toNat / total.toNat else 1 / (total + 256).toNat

/-- `w`. -/
noncomputable def predictW (n : Nat) (p : ℝ) : ℝ := Real.exp n * max (p * 256) 1 ^ 20

/-- `lws += w*p; lwt += w`. -/
noncomputable def predictContext (g : Globals) (byte : UInt8) (s : ℝ × ℝ) (n : Nat) :
    Outcome (ℝ × ℝ) := do
  match ← predictCounts g n byte with
  | none => return s
  | some (total, af) =>
    let p := predictP total af
    let w := predictW n p
    return (s.1 + w * p, s.2 + w)

noncomputable def predictLevel (g : Globals) (byte : UInt8) (s : ℝ × ℝ) (lv : BtLevel) :
    Outcome (ℝ × ℝ) := do
  let start := min g.window.bytes.length lv.dmax
  let (lws, lwt) ← (scanOrder lv.dmin start).foldlM (predictContext g byte) (0, 0)
  if 0 < lwt then return (s.1 + lv.weight * (lws / lwt), s.2 + lv.weight) else return s

noncomputable def predictByte (g : Globals) (byte : UInt8) : Outcome ℝ := do
  if g.window.bytes = [] then return 1 / 256
  let (ws, wt) ← levels.foldlM (predictLevel g byte) (0, 0)
  if wt ≤ 0 then return 1 / 256
  return min (max (ws / wt) (1 / 10 ^ 12)) 1

/-- `(unsigned int)(m*scale)`, at least 1.  The conversion of a number out of range is undefined. -/
noncomputable def btV4Width (scale : Nat) (s p : ℝ) : Outcome Nat :=
  let m := (1 - 1 / 20) * (p / s) + 1 / 20 * (1 / 256)
  if 0 ≤ m * scale ∧ m * scale < (2 ^ 32 : Nat) then pure (max ⌊m * scale⌋₊ 1) else throw .overflow

noncomputable def btV4Distribution (g : Globals) (scale : Nat) : Outcome Cum := do
  let probs ← (List.range 256).mapM fun b => predictByte g (UInt8.ofNat b)
  if probs.sum ≤ 0 then return fun b => if b = 256 then scale else b * (scale / 256)
  let ws ← probs.mapM (btV4Width scale probs.sum)
  return cumOf fun b => ws.getD b.toNat 0

/-- The orders of a level at which something is known, with the counts. -/
def levelCounts (G : Grams) (len dmin dmax : Nat) : List (Nat × UInt32 × UInt32) :=
  (scanOrder dmin (min len dmax)).filterMap fun n => (G n).map fun x => (n, x)

/-- `lwt`. -/
noncomputable def sumW (xs : List (Nat × UInt32 × UInt32)) : ℝ :=
  (xs.map fun x => predictW x.1 (predictP x.2.1 x.2.2)).sum

/-- `lws`. -/
noncomputable def sumWP (xs : List (Nat × UInt32 × UInt32)) : ℝ :=
  (xs.map fun x => predictW x.1 (predictP x.2.1 x.2.2) * predictP x.2.1 x.2.2).sum

/-- One level, where the lookups give `G`. -/
noncomputable def gramLevel (G : Grams) (len : Nat) (s : ℝ × ℝ) (lv : BtLevel) : ℝ × ℝ :=
  let xs := levelCounts G len lv.dmin lv.dmax
  if xs = [] then s else (s.1 + lv.weight * (sumWP xs / sumW xs), s.2 + lv.weight)

/-- `predict_byte`, where the lookups give `G`. -/
noncomputable def gramPredict (G : Grams) (len : Nat) : ℝ :=
  if len = 0 then 1 / 256
  else
    let s := levels.foldl (gramLevel G len) (0, 0)
    if s.2 ≤ 0 then 1 / 256 else min (max (s.1 / s.2) (1 / 10 ^ 12)) 1

section Run

variable {g : Globals} {b : UInt8} {G : Grams}

theorem predictW_pos (n : Nat) (p : ℝ) : 0 < predictW n p := by
  unfold predictW
  positivity

theorem sumW_pos {xs : List (Nat × UInt32 × UInt32)} (h : xs ≠ []) : 0 < sumW xs := by
  apply List.sum_pos
  · intro w hw
    obtain ⟨x, -, rfl⟩ := List.mem_map.1 hw
    exact predictW_pos _ _
  · simpa using h

theorem foldlM_predictContext (h : ∀ n, predictCounts g n b = .ok (G n)) (ns : List Nat)
    (s : ℝ × ℝ) : ns.foldlM (predictContext g b) s =
      .ok (s.1 + sumWP (ns.filterMap fun n => (G n).map fun x => (n, x)),
        s.2 + sumW (ns.filterMap fun n => (G n).map fun x => (n, x))) := by
  induction ns generalizing s with
  | nil =>
    simp [sumWP, sumW]
    rfl
  | cons n ns ih =>
    rw [List.foldlM_cons, predictContext, h n, ok_bind]
    cases hx : G n with
    | none =>
      simp only [List.filterMap_cons, hx, Option.map_none]
      exact ih s
    | some x =>
      simp only [List.filterMap_cons, hx, Option.map_some, sumWP, sumW, List.map_cons,
        List.sum_cons, ← add_assoc]
      exact ih _

theorem predictLevel_eq (h : ∀ n, predictCounts g n b = .ok (G n)) (s : ℝ × ℝ) (lv : BtLevel) :
    predictLevel g b s lv = .ok (gramLevel G g.window.bytes.length s lv) := by
  rw [predictLevel, foldlM_predictContext h, ok_bind, zero_add, zero_add]
  change (if 0 < sumW (levelCounts G _ lv.dmin lv.dmax) then _ else _) = _
  rw [gramLevel]
  by_cases hxs : levelCounts G g.window.bytes.length lv.dmin lv.dmax = []
  · rw [if_pos hxs, hxs]
    simp [sumW]
    rfl
  · rw [if_neg hxs, if_pos (sumW_pos hxs)]
    rfl

theorem predictByte_eq (h : ∀ n, predictCounts g n b = .ok (G n)) :
    predictByte g b = .ok (gramPredict G g.window.bytes.length) := by
  have hfold : ∀ (lvs : List BtLevel) (s : ℝ × ℝ), lvs.foldlM (predictLevel g b) s =
      .ok (lvs.foldl (gramLevel G g.window.bytes.length) s) := by
    intro lvs
    induction lvs with
    | nil => exact fun _ => rfl
    | cons lv lvs ih =>
      intro s
      rw [List.foldlM_cons, predictLevel_eq h, ok_bind, ih]
      rfl
  rw [predictByte, gramPredict]
  by_cases hempty : g.window.bytes = []
  · rw [if_pos hempty, if_pos (List.length_eq_zero_iff.2 hempty)]
    rfl
  · rw [if_neg hempty, if_neg fun h0 => hempty (List.length_eq_zero_iff.1 h0), hfold, ok_bind]
    dsimp only
    split_ifs <;> rfl

end Run

end Bcb.V0
