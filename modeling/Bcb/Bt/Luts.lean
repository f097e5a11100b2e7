import Bcb.Bt.Build
import Bcb.Lib.Loop
import Mathlib.Logic.Function.Iterate
import Mathlib.Tactic.Positivity
import Mathlib.Tactic.NormNum

/-! The lookup tables of `build_luts`.  Their contents depend on the build alone; whether
`CONF_LOG2` and `EXP2_FRAC` are allocated is an argument of the reads. -/

namespace Bcb.Bt

open Lib

/-- `WSCALE`. -/
def wscale : Nat := 2 ^ 28

/-- `PSCALE`. -/
def pscale : Nat := 2 ^ 28

/-- The turns of `while(bit>x) bit>>=2`. -/
def isqrtSkipTurn (x : Nat) (bit : Nat) : Option Nat := if x < bit then some (bit / 4) else none

structure IsqrtState where
  x : Nat
  r : Nat
  bit : Nat

def isqrtTurn (s : IsqrtState) : Option IsqrtState :=
  if s.bit = 0 then none
  else if s.r + s.bit ≤ s.x then some ⟨s.x - (s.r + s.bit), s.r / 2 + s.bit, s.bit / 4⟩
  else some ⟨s.x, s.r / 2, s.bit / 4⟩

/-- Both loops divide a `bit` of at most `2^62` by four. -/
def isqrt64 (x : Nat) : Nat :=
  (Loop.run isqrtTurn 32 ⟨x, 0, Loop.run (isqrtSkipTurn x) 32 (2 ^ 62)⟩).r

/-- One of the 16 turns over the mantissa and the result. -/
def log2Q16Turn (s : Nat × Nat) : Nat × Nat :=
  let m := s.1 * s.1 / 2 ^ 16
  if 2 ^ 17 ≤ m then (m / 2, 2 * s.2 + 1) else (m, 2 * s.2)

/-- For a Q16 argument of at least 1, as both callers give it. -/
def log2Q16 (x : Nat) : Nat :=
  let ip := Nat.log2 x - 16
  (log2Q16Turn^[16] (x / 2 ^ ip, ip)).2

def expLog2 (n : Nat) : Int := n * 94548

def confLog2 (B : Build) (i : Nat) : Int :=
  let confQ16 := (2 * i + 1) * 128 * 2 ^ 16 / B.pres
  20 * log2Q16 (max confQ16 (2 ^ 16))

def twoPow : Nat → Nat
  | 0 => 2 * 2 ^ 16
  | k + 1 => isqrt64 (twoPow k * 2 ^ 16)

/-- The product over the bits of `frac_q16`, the highest first. -/
def exp2Q16 (fracQ16 : Nat) : Nat → Nat
  | 0 => 2 ^ 16
  | k + 1 =>
    if fracQ16.testBit (16 - (k + 1)) then exp2Q16 fracQ16 k * twoPow (k + 1) / 2 ^ 16
    else exp2Q16 fracQ16 k

def exp2Frac (B : Build) (f : Nat) : Int :=
  wscale * 2 ^ 16 / exp2Q16 (f * 2 ^ 16 / B.exp2Fn) 16

/-- `CONF_LOG2[i]`. -/
def readConfLog2 (B : Build) (luts : Bool) (i : Int) : Outcome Int :=
  if !luts then throw .lutNull
  else if 0 ≤ i ∧ i < B.pres then pure (confLog2 B i.toNat)
  else throw .lutIndex

/-- `EXP2_FRAC[f]`. -/
def readExp2Frac (B : Build) (luts : Bool) (f : Nat) : Outcome Int :=
  if !luts then throw .lutNull
  else if f < B.exp2Fn then pure (exp2Frac B f)
  else throw .lutIndex

/-- `x >> n` on `int64_t`, for a count below 64. -/
def shiftRight (x n : Int) : Outcome Int := if n < 0 then throw .shift else pure (x / 2 ^ n.toNat)

/-- The weight of a logarithm that is `norm ≤ 0` below the largest. -/
def exp2W (B : Build) (luts : Bool) (norm : Int) : Outcome Int := do
  let neg ← i64 (-norm)
  let ip := toInt32 (neg / 2 ^ 16)
  if 40 ≤ ip then return 0
  let fr ← readExp2Frac B luts (neg / 2 ^ (16 - B.exp2Fb) % B.exp2Fn).toNat
  shiftRight fr ip

/-- What `exp2_w` returns once the tables are there. -/
def expWeight (B : Build) (norm : Int) : Int :=
  if 40 ≤ (-norm).toNat / 2 ^ 16 then 0
  else exp2Frac B ((-norm).toNat / 2 ^ (16 - B.exp2Fb) % B.exp2Fn) / 2 ^ ((-norm).toNat / 2 ^ 16)

section Bounds

variable (B : Build)

theorem log2Q16Turn_snd_le (s : Nat × Nat) : (log2Q16Turn s).2 ≤ 2 * s.2 + 1 := by
  simp only [log2Q16Turn]
  split_ifs <;> simp

theorem log2Q16Turn_iterate_le (n : Nat) (s : Nat × Nat) :
    (log2Q16Turn^[n] s).2 + 1 ≤ 2 ^ n * (s.2 + 1) := by
  induction n generalizing s with
  | zero => simp
  | succ n ih =>
    have hturn := log2Q16Turn_snd_le s
    calc (log2Q16Turn^[n + 1] s).2 + 1
        = (log2Q16Turn^[n] (log2Q16Turn s)).2 + 1 := by rw [Function.iterate_succ_apply]
      _ ≤ 2 ^ n * ((log2Q16Turn s).2 + 1) := ih _
      _ ≤ 2 ^ n * (2 * (s.2 + 1)) := Nat.mul_le_mul_left _ (by omega)
      _ = 2 ^ (n + 1) * (s.2 + 1) := by rw [pow_succ]; ring

theorem log2Q16_le {x : Nat} (h : x < 2 ^ 24) : log2Q16 x ≤ 2 ^ 19 := by
  have hlog : Nat.log2 x ≤ 23 := by
    rcases Nat.eq_zero_or_pos x with rfl | hpos
    · simp
    · exact Nat.le_of_lt_succ ((Nat.log2_lt hpos.ne').2 h)
  have hrun := log2Q16Turn_iterate_le 16 (x / 2 ^ (Nat.log2 x - 16), Nat.log2 x - 16)
  simp only at hrun
  rw [log2Q16]
  omega

theorem confLog2_nonneg (i : Nat) : 0 ≤ confLog2 B i := by
  unfold confLog2
  positivity

theorem confLog2_le {i : Nat} (h : i < B.pres) : confLog2 B i ≤ 2 ^ 24 := by
  have hconf : (2 * i + 1) * 128 * 2 ^ 16 / B.pres < 2 ^ 24 := by
    rw [Nat.div_lt_iff_lt_mul B.pres_pos]
    omega
  have hlog := log2Q16_le (x := max ((2 * i + 1) * 128 * 2 ^ 16 / B.pres) (2 ^ 16)) (by omega)
  simp only [confLog2]
  omega

theorem twoPow_ge : ∀ k ≤ 16, 2 ^ 16 ≤ twoPow k := by decide +kernel

theorem exp2Q16_ge (fracQ16 : Nat) {k : Nat} (h : k ≤ 16) : 2 ^ 16 ≤ exp2Q16 fracQ16 k := by
  induction k with
  | zero => exact le_rfl
  | succ k ih =>
    have ih := ih (Nat.le_of_succ_le h)
    have htwo := twoPow_ge (k + 1) h
    rw [exp2Q16]
    split_ifs
    · rw [Nat.le_div_iff_mul_le (by norm_num)]
      exact Nat.mul_le_mul ih htwo
    · exact ih

theorem exp2Frac_nonneg (f : Nat) : 0 ≤ exp2Frac B f := by
  unfold exp2Frac
  positivity

theorem exp2Frac_le (f : Nat) : exp2Frac B f ≤ 2 ^ 28 := by
  have hge := exp2Q16_ge (f * 2 ^ 16 / B.exp2Fn) le_rfl
  have hnat : 2 ^ 28 * 2 ^ 16 / exp2Q16 (f * 2 ^ 16 / B.exp2Fn) 16 ≤ 2 ^ 28 := by
    calc 2 ^ 28 * 2 ^ 16 / exp2Q16 (f * 2 ^ 16 / B.exp2Fn) 16
        ≤ 2 ^ 28 * 2 ^ 16 / 2 ^ 16 := Nat.div_le_div_left hge (by norm_num)
      _ = 2 ^ 28 := Nat.mul_div_cancel _ (by norm_num)
  have hcast : exp2Frac B f =
      ((2 ^ 28 * 2 ^ 16 / exp2Q16 (f * 2 ^ 16 / B.exp2Fn) 16 : Nat) : Int) := by
    simp [exp2Frac, wscale]
  rw [hcast]
  exact_mod_cast hnat

@[simp] theorem exp2Frac_zero : exp2Frac B 0 = 2 ^ 28 := by
  have hq : exp2Q16 (0 * 2 ^ 16 / B.exp2Fn) 16 = 2 ^ 16 := by
    rw [Nat.zero_mul, Nat.zero_div]
    decide +kernel
  rw [exp2Frac, hq]
  decide

theorem expWeight_nonneg (norm : Int) : 0 ≤ expWeight B norm := by
  unfold expWeight
  split_ifs
  · exact le_rfl
  · exact Int.ediv_nonneg (exp2Frac_nonneg B _) (by positivity)

theorem expWeight_le (norm : Int) : expWeight B norm ≤ 2 ^ 28 := by
  unfold expWeight
  split_ifs
  · norm_num
  · exact (Int.ediv_le_self _ (exp2Frac_nonneg B _)).trans (exp2Frac_le B _)

@[simp] theorem expWeight_zero : expWeight B 0 = 2 ^ 28 := by
  simp [expWeight, exp2Frac_zero]

theorem exp2W_true {norm : Int} (h0 : norm ≤ 0) (h : -2 ^ 47 < norm) :
    exp2W B true norm = .ok (expWeight B norm) := by
  obtain ⟨neg, rfl⟩ : ∃ neg : Nat, norm = -neg := ⟨(-norm).toNat, by omega⟩
  have hlt := Nat.mod_lt (neg / 2 ^ (16 - B.exp2Fb)) B.exp2Fn_pos
  have hneg : i64 (- -(neg : Int)) = .ok neg := by
    rw [Int.neg_neg]
    exact i64_ok (by omega) (by omega)
  have hip : toInt32 ((neg : Int) / 2 ^ 16) = (neg / 2 ^ 16 : Nat) := by
    rw [toInt32_of_lt (by omega) (by omega)]
    rfl
  have hidx : ((neg : Int) / 2 ^ (16 - B.exp2Fb) % B.exp2Fn).toNat =
      neg / 2 ^ (16 - B.exp2Fb) % B.exp2Fn := by
    exact_mod_cast Int.toNat_natCast _
  rw [exp2W, hneg, ok_bind]
  simp only [expWeight, hip, hidx, Int.neg_neg, Int.toNat_natCast, Nat.ofNat_le_cast]
  split_ifs
  · rfl
  · have hfrac : readExp2Frac B true (neg / 2 ^ (16 - B.exp2Fb) % B.exp2Fn) =
        .ok (exp2Frac B (neg / 2 ^ (16 - B.exp2Fb) % B.exp2Fn)) := by
      rw [readExp2Frac, if_neg (by decide), if_pos hlt]
      rfl
    rw [hfrac, ok_bind, shiftRight, if_neg (by omega)]
    rfl

theorem readConfLog2_true {i : Int} (h0 : 0 ≤ i) (h : i < B.pres) :
    readConfLog2 B true i = .ok (confLog2 B i.toNat) := by
  simp only [readConfLog2, Bool.not_true, Bool.false_eq_true, if_false, if_pos (And.intro h0 h)]
  rfl

end Bounds

end Bcb.Bt
