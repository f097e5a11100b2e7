import Bcb.Lib.Rounding
import Bcb.Symdist.Normalize

namespace Bcb.Prior

open Lib RangeCoder Bt Symdist

/-- The conversion of an `int` to `uint16_t`, for every behaviour out of range. -/
structure Shorts where
  u16 : Int → Outcome Nat
  u16_of_lt : ∀ {n : Nat}, n < 2 ^ 16 → u16 n = .ok n

namespace Shorts

/-- The C program. -/
def wrapping : Shorts where
  u16 x := pure (x % 2 ^ 16).toNat
  u16_of_lt h := congrArg Except.ok (by omega)

/-- A sanitizer. -/
def checked : Shorts where
  u16 x := if 0 ≤ x ∧ x < 2 ^ 16 then pure x.toNat else throw .overflow
  u16_of_lt h := if_pos ⟨Int.natCast_nonneg _, by omega⟩

end Shorts

/-- A result in `int`. -/
def i32 (x : Int) : Outcome Int :=
  if -2 ^ 31 ≤ x ∧ x < 2 ^ 31 then pure x else throw .overflow

/-- `(int)x`, towards zero. -/
def toInt (x : ℚ) : Outcome Int := i32 (if 0 ≤ x then ⌊x⌋ else ⌈x⌉)

/-- `acc + v`. -/
def sumInt (x : Nat) : Outcome Nat := Int.toNat <$> i32 x

/-- `v`, after `if (v < 1)` and `if (v > scale)`. -/
def nearest (D : Doubles) (P : UInt8 → ℚ) (sum : ℚ) (scale : Nat) (b : UInt8) : Outcome Nat := do
  let x := if 0 < sum then D.mul (D.div (P b) sum) scale else D.div scale 256
  let v ← toInt (D.add x (1 / 2))
  let v := if v < 1 then 1 else v
  return (if (scale : Int) < v then (scale : Int) else v).toNat

/-- `pr`. -/
def share (D : Doubles) (P : UInt8 → ℚ) (sum : ℚ) (b : UInt8) : ℚ :=
  if 0 < sum then D.div (P b) sum else D.div 1 256

/-- The first of the most probable bytes, or 0 where none is above -1. -/
def mostProbable (pr : UInt8 → ℚ) : UInt8 :=
  ((List.range 256).foldl (fun (x : UInt8 × ℚ) b =>
    let b := UInt8.ofNat b
    if x.2 < pr b then (b, pr b) else x) (0, -1)).1

/-- `while (diff > 0)`, whose turns each take 1 from `diff`. -/
def growMost (U : Shorts) (pr : UInt8 → ℚ) : Nat → (UInt8 → Nat) → Outcome (UInt8 → Nat)
  | 0, w => pure w
  | n + 1, w => do
    let bi := mostProbable pr
    growMost U pr n (Function.update w bi (← U.u16 (w bi + 1)))

/-- The first of the widest bytes above 1. -/
def widest (w : UInt8 → Nat) : Option UInt8 :=
  ((List.range 256).foldl (fun (x : Option UInt8 × Nat) b =>
    let b := UInt8.ofNat b
    if x.2 < w b then (some b, w b) else x) (none, 1)).1

/-- `while (diff < 0)`, whose turns each add 1 to `diff`. -/
def shrinkWidest (U : Shorts) : Nat → (UInt8 → Nat) → Outcome (UInt8 → Nat)
  | 0, w => pure w
  | n + 1, w =>
    match widest w with
    | none => pure w
    | some bi => do shrinkWidest U n (Function.update w bi (← U.u16 (w bi - 1)))

def lmQuantize (D : Doubles) (U : Shorts) (P : UInt8 → ℚ) (sum : ℚ) (scale : Nat) :
    Outcome (UInt8 → Nat) := do
  let v ← forBytes (nearest D P sum scale)
  let w ← forBytes fun b => U.u16 (v b)
  let acc ← sumBytes sumInt v
  let diff : Int := scale - acc
  let w ← growMost U (share D P sum) diff.toNat w
  shrinkWidest U (-diff).toNat w

variable {D : Doubles} {U : Shorts} {P : UInt8 → ℚ} {sum : ℚ} {w : UInt8 → Nat} {scale n : Nat}

/-! ## The first loop -/

theorem toInt_of_mem {x : ℚ} (h0 : 0 ≤ x) (hx : x < 2 ^ 31) :
    ∃ v : Nat, toInt x = .ok v ∧ (v : ℚ) ≤ x := by
  have hfloor : 0 ≤ ⌊x⌋ := Int.floor_nonneg.2 h0
  have hlt : ⌊x⌋ < 2 ^ 31 := by
    rw [Int.floor_lt]
    exact_mod_cast hx
  refine ⟨⌊x⌋.toNat, ?_, ?_⟩
  · rw [toInt, if_pos h0, i32, if_pos ⟨by omega, hlt⟩, Int.toNat_of_nonneg hfloor]
    rfl
  · have hcast : ((⌊x⌋.toNat : Nat) : ℚ) = ((⌊x⌋ : Int) : ℚ) := by
      exact_mod_cast congrArg (Int.cast (R := ℚ)) (Int.toNat_of_nonneg hfloor)
    rw [hcast]
    exact Int.floor_le x

/-- What `lm_quantize` is given. -/
structure Weights (P : UInt8 → ℚ) (sum : ℚ) : Prop where
  nonneg : ∀ b, 0 ≤ P b
  sum : sum ≤ 0 ∨ ∀ b, P b ≤ sum

theorem Weights.scaled_mem (h : Weights P sum) (hscale : scale ≤ 65535) (b : UInt8) :
    0 ≤ (if 0 < sum then D.mul (D.div (P b) sum) scale else D.div scale 256) ∧
      (if 0 < sum then D.mul (D.div (P b) sum) scale else D.div scale 256) ≤ scale := by
  have h0 : (0 : ℚ) ≤ scale := Nat.cast_nonneg _
  have hmem : (scale : ℚ) ∈ D.nums := D.natCast_mem (by omega)
  split_ifs with hpos
  · have hq : 0 ≤ D.div (P b) sum := Doubles.nonneg_div (h.nonneg b) hpos.le
    have hq1 : D.div (P b) sum ≤ 1 :=
      Doubles.quotient_le hpos (h.sum.resolve_left (not_le.2 hpos) b)
    exact ⟨Doubles.nonneg_mul hq h0,
      (D.mul_rounds _ _).le _ hmem (mul_le_of_le_one_left h0 hq1)⟩
  · refine ⟨Doubles.nonneg_div h0 (by norm_num), (D.div_rounds _ _).le _ hmem ?_⟩
    exact div_le_self h0 (by norm_num)

theorem Weights.nearest_ok (h : Weights P sum) (hscale : 1 ≤ scale) (hscale' : scale ≤ 65535)
    (b : UInt8) : ∃ v, nearest D P sum scale b = .ok v ∧ 1 ≤ v ∧ v ≤ scale := by
  obtain ⟨h0, hle⟩ := h.scaled_mem (D := D) hscale' b
  have hadd : 0 ≤ D.add (if 0 < sum then D.mul (D.div (P b) sum) scale else D.div scale 256)
      (1 / 2) := Doubles.nonneg_add h0 (by norm_num)
  have hhalf : ((2 * scale + 1 : Nat) / 2 : ℚ) ∈ D.nums := D.half_mem _ (by omega)
  have hcast : ((2 * scale + 1 : Nat) / 2 : ℚ) = scale + 1 / 2 := by
    push_cast
    ring
  have hle' := (D.add_rounds (if 0 < sum then D.mul (D.div (P b) sum) scale else D.div scale 256)
    (1 / 2)).le _ hhalf (by rw [hcast]; linarith)
  rw [hcast] at hle'
  have hscaleQ : (scale : ℚ) ≤ 65535 := by exact_mod_cast hscale'
  obtain ⟨v, hv, -⟩ := toInt_of_mem hadd (by norm_num; linarith)
  refine ⟨if scale < (if v < 1 then 1 else v) then scale else if v < 1 then 1 else v, ?_, ?_, ?_⟩
  · rw [nearest, hv]
    refine congrArg Except.ok ?_
    split_ifs <;> omega
  · split_ifs <;> omega
  · split_ifs <;> omega

/-! ## The loop that gives what is missing to the most probable byte -/

theorem growMost_ok (pr : UInt8 → ℚ) (hlt : widthSum w 256 + n < 2 ^ 16) :
    ∃ w', (∀ U : Shorts, growMost U pr n w = .ok w') ∧ (∀ b, w b ≤ w' b) ∧
      widthSum w' 256 = widthSum w 256 + n := by
  induction n generalizing w with
  | zero => exact ⟨w, fun _ => rfl, fun _ => le_rfl, (Nat.add_zero _).symm⟩
  | succ n ih =>
    have hle := le_widthSum w (mostProbable pr)
    have hupdate := widthSum_update w (mostProbable pr) (w (mostProbable pr) + 1)
    obtain ⟨w', hrun, hmono, hsum⟩ :=
      ih (w := Function.update w (mostProbable pr) (w (mostProbable pr) + 1)) (by omega)
    refine ⟨w', fun U => ?_, fun b => ?_, by omega⟩
    · have hu16 : U.u16 (w (mostProbable pr) + 1 : Int) = .ok (w (mostProbable pr) + 1) := by
        have h := U.u16_of_lt (n := w (mostProbable pr) + 1) (by omega)
        rwa [Nat.cast_succ] at h
      rw [growMost, hu16]
      exact hrun U
    · refine le_trans ?_ (hmono b)
      rw [Function.update_apply]
      split_ifs with hb
      · exact hb ▸ Nat.le_succ _
      · exact le_rfl

/-! ## The loop that takes what is too much from the widest byte -/

theorem widest_foldl (w : UInt8 → Nat) (l : List Nat) (x : Option UInt8 × Nat)
    (hx : ∀ b, x.1 = some b → x.2 = w b ∧ 1 < w b) (h1 : 1 ≤ x.2) :
    let y := l.foldl (fun (x : Option UInt8 × Nat) b =>
      if x.2 < w (UInt8.ofNat b) then (some (UInt8.ofNat b), w (UInt8.ofNat b)) else x) x
    (∀ b, y.1 = some b → y.2 = w b ∧ 1 < w b) ∧
      (y.1 = none → x.1 = none ∧ ∀ b ∈ l, w (UInt8.ofNat b) ≤ x.2) := by
  induction l generalizing x with
  | nil => exact ⟨hx, fun h => ⟨h, fun b hb => by cases hb⟩⟩
  | cons b l ih =>
    simp only [List.foldl_cons]
    by_cases hlt : x.2 < w (UInt8.ofNat b)
    · rw [if_pos hlt]
      obtain ⟨hsome, hnone⟩ := ih (some (UInt8.ofNat b), w (UInt8.ofNat b))
        (fun b' hb' => by
          obtain rfl := Option.some.inj hb'
          exact ⟨rfl, h1.trans_lt hlt⟩) (h1.trans hlt.le)
      exact ⟨hsome, fun h => by cases (hnone h).1⟩
    · rw [if_neg hlt]
      obtain ⟨hsome, hnone⟩ := ih x hx h1
      refine ⟨hsome, fun h => ⟨(hnone h).1, fun b' hb' => ?_⟩⟩
      rcases List.mem_cons.1 hb' with rfl | hb'
      · exact Nat.le_of_not_lt hlt
      · exact (hnone h).2 b' hb'

theorem widest_spec (h : 256 < widthSum w 256) : ∃ b, widest w = some b ∧ 1 < w b := by
  obtain ⟨hsome, hnone⟩ := widest_foldl w (List.range 256) (none, 1) (fun b hb => by cases hb)
    le_rfl
  change (∀ b, widest w = some b → _) at hsome
  change (widest w = none → _) at hnone
  cases hb : widest w with
  | some b => exact ⟨b, rfl, (hsome b hb).2⟩
  | none =>
    have hone : widthSum w 256 ≤ ∑ _b ∈ Finset.range 256, 1 :=
      Finset.sum_le_sum fun b hmem => (hnone hb).2 b (List.mem_range.2 (Finset.mem_range.1 hmem))
    rw [Finset.sum_const, Finset.card_range, smul_eq_mul] at hone
    omega

theorem shrinkWidest_ok (hpos : ∀ b, 1 ≤ w b) (hlt : ∀ b, w b < 2 ^ 16) (hscale : 256 ≤ scale)
    (hsum : widthSum w 256 = scale + n) :
    ∃ w', (∀ U : Shorts, shrinkWidest U n w = .ok w') ∧ (∀ b, 1 ≤ w' b) ∧
      widthSum w' 256 = scale := by
  induction n generalizing w with
  | zero => exact ⟨w, fun _ => rfl, hpos, hsum⟩
  | succ n ih =>
    obtain ⟨i, hi, hone⟩ := widest_spec (w := w) (by omega)
    have hupdate := widthSum_update w i (w i - 1)
    have hnew : ∀ b, 1 ≤ Function.update w i (w i - 1) b ∧
        Function.update w i (w i - 1) b < 2 ^ 16 := by
      intro b
      have hw := hlt i
      rw [Function.update_apply]
      split_ifs
      · omega
      · exact ⟨hpos b, hlt b⟩
    obtain ⟨w', hrun, hpos', hsum'⟩ := ih (fun b => (hnew b).1) (fun b => (hnew b).2) (by omega)
    refine ⟨w', fun U => ?_, hpos', hsum'⟩
    have hu16 : U.u16 (w i - 1 : Int) = .ok (w i - 1) := by
      have h := U.u16_of_lt (n := w i - 1) ((Nat.sub_le _ _).trans_lt (hlt i))
      rwa [Nat.cast_pred (by omega)] at h
    rw [shrinkWidest, hi]
    change (do shrinkWidest U n (Function.update w i (← U.u16 (w i - 1 : Int)))) = _
    rw [hu16]
    exact hrun U

/-! ## The whole function -/

/-- Every byte has a width, and the widths make up the scale. -/
structure FullRow (scale : Nat) (w : UInt8 → Nat) : Prop where
  pos : ∀ b, 1 ≤ w b
  sum : widthSum w 256 = scale

theorem Weights.lmQuantize_ok (D : Doubles) (h : Weights P sum) (hscale : 256 ≤ scale)
    (hscale' : scale ≤ 65535) :
    ∃ w, (∀ U, lmQuantize D U P sum scale = .ok w) ∧ FullRow scale w := by
  choose v hv hpos hle using h.nearest_ok (D := D) (by omega) hscale'
  have hsum : widthSum v 256 ≤ 256 * 65535 := by
    calc widthSum v 256 ≤ ∑ _b ∈ Finset.range 256, 65535 :=
          Finset.sum_le_sum fun b _ => (hle _).trans hscale'
      _ = 256 * 65535 := by rw [Finset.sum_const, Finset.card_range, smul_eq_mul]
  have hacc : sumBytes sumInt v = .ok (widthSum v 256) := by
    apply sumBytes_ok
    intro x hx
    rw [sumInt, i32, if_pos ⟨by omega, by omega⟩]
    rfl
  have hstart : ∀ U : Shorts, lmQuantize D U P sum scale =
      (growMost U (share D P sum) ((scale : Int) - widthSum v 256).toNat v >>=
        shrinkWidest U (-((scale : Int) - widthSum v 256)).toNat) := by
    intro U
    have hcast : forBytes (fun b => U.u16 (v b)) = .ok v :=
      forBytes_ok fun b => U.u16_of_lt ((hle b).trans_lt (by omega))
    rw [lmQuantize, forBytes_ok hv, ok_bind, hcast, ok_bind, hacc, ok_bind]
  rcases Nat.le_total (widthSum v 256) scale with hless | hmore
  · obtain ⟨n, hn⟩ : ∃ n, ((scale : Int) - widthSum v 256).toNat = n := ⟨_, rfl⟩
    have hn' : (-((scale : Int) - widthSum v 256)).toNat = 0 := by omega
    obtain ⟨w, hgrow, hmono, hw⟩ := growMost_ok (n := n) (share D P sum) (w := v) (by omega)
    refine ⟨w, fun U => ?_, fun b => (hpos b).trans (hmono b), by omega⟩
    rw [hstart, hn, hn', hgrow, ok_bind, shrinkWidest]
    rfl
  · obtain ⟨n, hn⟩ : ∃ n, (-((scale : Int) - widthSum v 256)).toNat = n := ⟨_, rfl⟩
    have hn' : ((scale : Int) - widthSum v 256).toNat = 0 := by omega
    obtain ⟨w, hshrink, hw, hsum'⟩ := shrinkWidest_ok (n := n) hpos
      (fun b => (hle b).trans_lt (by omega)) hscale (by omega)
    refine ⟨w, fun U => ?_, hw, hsum'⟩
    rw [hstart, hn, hn', growMost]
    exact hshrink U

/-- No width is cut to 16 bits. -/
theorem Weights.lmQuantize_checked (D : Doubles) (h : Weights P sum) (hscale : 256 ≤ scale)
    (hscale' : scale ≤ 65535) : ∃ w, lmQuantize D .checked P sum scale = .ok w ∧
      lmQuantize D .wrapping P sum scale = .ok w := by
  obtain ⟨w, hrun, -⟩ := h.lmQuantize_ok D hscale hscale'
  exact ⟨w, hrun .checked, hrun .wrapping⟩

end Bcb.Prior
