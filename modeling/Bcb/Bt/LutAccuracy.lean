import Bcb.Bt.Isqrt
import Bcb.Lib.BitPower
import Bcb.Lib.SquareLog

namespace Bcb.Bt

open Lib Real

section Log

variable {x : Nat}

theorem log2Q16_known (h : 2 ^ 16 ≤ x) : SquareLog.Known 16 (logb 2 (x / 2 ^ 16)) 16
    (log2Q16Turn^[16] (x / 2 ^ (Nat.log2 x - 16), Nat.log2 x - 16)) := by
  have hrun := (SquareLog.Known.start h).iterate 16
  rw [Nat.zero_add] at hrun
  exact hrun

theorem log2Q16_le_logb (h : 2 ^ 16 ≤ x) : (log2Q16 x : ℝ) ≤ 2 ^ 16 * logb 2 (x / 2 ^ 16) :=
  (log2Q16_known h).le

theorem logb_lt_log2Q16 (h : 2 ^ 16 ≤ x) :
    2 ^ 16 * logb 2 (x / 2 ^ 16) < (log2Q16 x : ℝ) + 4 := by
  have hlt := (log2Q16_known h).lt
  have hulp := SquareLog.ulpLog_le 16
  rw [log2Q16]
  norm_num at hulp hlt ⊢
  linarith

/-- `log2_q16` is below the logarithm by less than four of its units. -/
theorem log2Q16_near (h : 2 ^ 16 ≤ x) :
    (log2Q16 x : ℝ) ≤ 2 ^ 16 * logb 2 (x / 2 ^ 16) ∧
      2 ^ 16 * logb 2 (x / 2 ^ 16) < (log2Q16 x : ℝ) + 4 :=
  ⟨log2Q16_le_logb h, logb_lt_log2Q16 h⟩

theorem log2Q16_near_max :
    (log2Q16 (2 ^ 32 - 1) : ℝ) ≤ 2 ^ 16 * logb 2 ((2 ^ 32 - 1 : Nat) / 2 ^ 16) ∧
    2 ^ 16 * logb 2 ((2 ^ 32 - 1 : Nat) / 2 ^ 16) < (log2Q16 (2 ^ 32 - 1) : ℝ) + 4 :=
  log2Q16_near (by norm_num)

end Log

section Power

variable {B : Build}

theorem twoPow_eq (k : Nat) : twoPow k = BitPower.root 16 k := by
  induction k with
  | zero => rfl
  | succ k ih =>
    have hle := BitPower.root_le 16 k
    rw [twoPow, ih, BitPower.root, isqrt64_sqrt (by omega)]

theorem exp2Q16_eq (fracQ16 k : Nat) : exp2Q16 fracQ16 k = BitPower.power 16 fracQ16 k := by
  induction k with
  | zero => rfl
  | succ k ih => rw [exp2Q16, BitPower.power, ih, twoPow_eq]

theorem exp2Fb_mem (B : Build) : 12 ≤ B.exp2Fb ∧ B.exp2Fb ≤ 16 := by
  unfold Build.exp2Fb
  cases B.sizing <;> simp

theorem fracQ16_eq (B : Build) (f : Nat) :
    f * 2 ^ 16 / B.exp2Fn = f * 2 ^ (16 - B.exp2Fb) := by
  have hsplit : 2 ^ 16 = 2 ^ (16 - B.exp2Fb) * B.exp2Fn := by
    rw [Build.exp2Fn, ← pow_add, Nat.sub_add_cancel (exp2Fb_mem B).2]
  rw [hsplit, ← mul_assoc, Nat.mul_div_cancel _ B.exp2Fn_pos]

theorem two_pow_split (B : Build) : (2 : ℝ) ^ 16 = 2 ^ (16 - B.exp2Fb) * B.exp2Fn := by
  rw [Build.exp2Fn]
  push_cast
  rw [← pow_add, Nat.sub_add_cancel (exp2Fb_mem B).2]

theorem exp2Fn_real_pos (B : Build) : (0 : ℝ) < B.exp2Fn := by
  exact_mod_cast B.exp2Fn_pos

theorem exp2Q16_near {f : Nat} (hf : f < B.exp2Fn) :
    BitPower.Near 16 64 (exp2Q16 (f * 2 ^ 16 / B.exp2Fn) 16) (2 ^ ((f : ℝ) / B.exp2Fn)) := by
  have hlt : f * 2 ^ (16 - B.exp2Fb) < 2 ^ 16 := by
    calc f * 2 ^ (16 - B.exp2Fb) < B.exp2Fn * 2 ^ (16 - B.exp2Fb) :=
          Nat.mul_lt_mul_of_pos_right hf (Nat.two_pow_pos _)
      _ = 2 ^ 16 := by
        rw [Build.exp2Fn, ← pow_add, Nat.add_sub_cancel' (exp2Fb_mem B).2]
  have hnear := BitPower.power_near (by norm_num : 2 ≤ 16) hlt le_rfl
  have hexp : BitPower.exponent 16 (f * 2 ^ (16 - B.exp2Fb)) 16 = f / B.exp2Fn := by
    have hpos := exp2Fn_real_pos B
    rw [BitPower.exponent_full, two_pow_split B]
    push_cast
    field_simp
  rw [hexp] at hnear
  rw [fracQ16_eq, exp2Q16_eq]
  exact hnear.mono (by positivity) (by norm_num)

/-- The fraction's power, rounded down, and up to `1/1023` above. -/
theorem exp2Frac_near {f : Nat} (hf : f < B.exp2Fn) :
    2 ^ 28 * 2 ^ (-((f : ℝ) / B.exp2Fn)) - 1 < (exp2Frac B f : ℝ) ∧
      (exp2Frac B f : ℝ) ≤ 2 ^ 28 * 2 ^ (-((f : ℝ) / B.exp2Fn)) * (1024 / 1023) := by
  obtain ⟨hbelow, habove⟩ := exp2Q16_near hf
  have hge := exp2Q16_ge (f * 2 ^ 16 / B.exp2Fn) le_rfl
  have hcast : (exp2Frac B f : ℝ) =
      (2 ^ 28 * 2 ^ 16 / exp2Q16 (f * 2 ^ 16 / B.exp2Fn) 16 : Nat) := by
    rw [exp2Frac, wscale]
    exact_mod_cast rfl
  generalize exp2Q16 (f * 2 ^ 16 / B.exp2Fn) 16 = e at *
  have hE : (0 : ℝ) < 2 ^ ((f : ℝ) / B.exp2Fn) := by positivity
  have he : (0 : ℝ) < e := by
    exact_mod_cast lt_of_lt_of_le (by norm_num) hge
  rw [rpow_neg zero_le_two, hcast]
  generalize (2 : ℝ) ^ ((f : ℝ) / B.exp2Fn) = E at *
  rw [div_le_iff₀ (by positivity)] at hbelow
  rw [le_div_iff₀ (by positivity), BitPower.ulp_eq] at habove
  have hdiv : ((2 ^ 28 * 2 ^ 16 / e : Nat) : ℝ) ≤ 2 ^ 28 * 2 ^ 16 / e := by
    exact_mod_cast Nat.cast_div_le (α := ℝ) (m := 2 ^ 28 * 2 ^ 16) (n := e)
  have hfloor : (2 : ℝ) ^ 28 * 2 ^ 16 / e < (2 ^ 28 * 2 ^ 16 / e : Nat) + 1 := by
    rw [div_lt_iff₀ he]
    exact_mod_cast Nat.lt_mul_of_div_lt (Nat.lt_succ_self (2 ^ 28 * 2 ^ 16 / e))
      (lt_of_lt_of_le (by norm_num) hge)
  constructor
  · have hquot : e / E ≤ 2 ^ 16 := (div_le_iff₀ hE).2 (by linarith)
    have hlow : (2 : ℝ) ^ 28 * E⁻¹ ≤ 2 ^ 28 * 2 ^ 16 / e := by
      rw [le_div_iff₀ he]
      calc (2 : ℝ) ^ 28 * E⁻¹ * e = 2 ^ 28 * (e / E) := by ring
        _ ≤ 2 ^ 28 * 2 ^ 16 := by gcongr
    linarith
  · have hquot : 1023 * 64 ≤ e / E := (le_div_iff₀ hE).2 (by linarith)
    refine hdiv.trans ((div_le_iff₀ he).2 ?_)
    calc (2 : ℝ) ^ 28 * 2 ^ 16 = 2 ^ 28 * (1024 / 1023) * (1023 * 64) := by norm_num
      _ ≤ 2 ^ 28 * (1024 / 1023) * (e / E) := by gcongr
      _ = 2 ^ 28 * E⁻¹ * (1024 / 1023) * e := by ring

theorem expWeight_neg (B : Build) (neg : Nat) : expWeight B (-neg) =
    if 40 ≤ neg / 2 ^ 16 then 0
    else exp2Frac B (neg / 2 ^ (16 - B.exp2Fb) % B.exp2Fn) / 2 ^ (neg / 2 ^ 16) := by
  rw [expWeight, Int.neg_neg, Int.toNat_natCast]

theorem read_le (B : Build) (neg : Nat) :
    ((neg / 2 ^ 16 : Nat) : ℝ) + (neg / 2 ^ (16 - B.exp2Fb) % B.exp2Fn : Nat) / B.exp2Fn ≤
        neg / 2 ^ 16 ∧
      (neg : ℝ) / 2 ^ 16 ≤ (neg / 2 ^ 16 : Nat) +
        (neg / 2 ^ (16 - B.exp2Fb) % B.exp2Fn : Nat) / B.exp2Fn + 1 / 2 ^ 12 := by
  have hpos := exp2Fn_real_pos B
  have hdpos : (0 : ℝ) < 2 ^ (16 - B.exp2Fb) := by positivity
  have hsplit : 2 ^ 16 = 2 ^ (16 - B.exp2Fb) * B.exp2Fn := by
    rw [Build.exp2Fn, ← pow_add, Nat.sub_add_cancel (exp2Fb_mem B).2]
  have hmod := Nat.div_add_mod (neg / 2 ^ (16 - B.exp2Fb)) B.exp2Fn
  rw [Nat.div_div_eq_div_mul, ← hsplit] at hmod
  have hsum : ((neg / 2 ^ 16 : Nat) : ℝ) +
      (neg / 2 ^ (16 - B.exp2Fb) % B.exp2Fn : Nat) / B.exp2Fn =
        (neg / 2 ^ (16 - B.exp2Fb) : Nat) / B.exp2Fn := by
    rw [eq_div_iff hpos.ne', add_mul, div_mul_cancel₀ _ hpos.ne']
    rw [mul_comm]
    exact_mod_cast hmod
  have hneg : (neg : ℝ) / 2 ^ 16 = neg / 2 ^ (16 - B.exp2Fb) / B.exp2Fn := by
    rw [two_pow_split B, div_div]
  obtain ⟨hle, hlt⟩ := SquareLog.cast_floor neg (2 ^ (16 - B.exp2Fb)) (Nat.two_pow_pos _)
  push_cast at hle hlt
  rw [hsum, hneg]
  constructor
  · gcongr
  · have hfn : (1 : ℝ) / B.exp2Fn ≤ 1 / 2 ^ 12 := by
      apply one_div_le_one_div_of_le (by positivity)
      rw [Build.exp2Fn]
      push_cast
      exact pow_le_pow_right₀ one_le_two (exp2Fb_mem B).1
    calc (neg : ℝ) / 2 ^ (16 - B.exp2Fb) / B.exp2Fn
        ≤ ((neg / 2 ^ (16 - B.exp2Fb) : Nat) + 1) / B.exp2Fn := by gcongr
      _ = (neg / 2 ^ (16 - B.exp2Fb) : Nat) / B.exp2Fn + 1 / B.exp2Fn := add_div _ _ _
      _ ≤ _ := by gcongr

theorem ediv_near (a : Int) {b : Int} (hb : 0 < b) :
    ((a / b : Int) : ℝ) ≤ a / b ∧ (a : ℝ) / b < ((a / b : Int) : ℝ) + 1 := by
  have hpos : (0 : ℝ) < b := by exact_mod_cast hb
  constructor
  · rw [le_div_iff₀ hpos]
    exact_mod_cast Int.ediv_mul_le a hb.ne'
  · rw [div_lt_iff₀ hpos]
    exact_mod_cast Int.lt_ediv_add_one_mul_self a hb

theorem expWeight_near (B : Build) (neg : Nat) :
    2 ^ 28 * 2 ^ (-(neg : ℝ) / 2 ^ 16) - 2 < (expWeight B (-neg) : ℝ) ∧
      (expWeight B (-neg) : ℝ) ≤ 2 ^ 28 * 2 ^ (-(neg : ℝ) / 2 ^ 16) * (801 / 800) := by
  obtain ⟨hle, hge⟩ := read_le B neg
  have hf : neg / 2 ^ (16 - B.exp2Fb) % B.exp2Fn < B.exp2Fn := Nat.mod_lt _ B.exp2Fn_pos
  rw [expWeight_neg]
  generalize neg / 2 ^ (16 - B.exp2Fb) % B.exp2Fn = f at *
  generalize hip : neg / 2 ^ 16 = ip at *
  obtain ⟨hlow, hhigh⟩ := exp2Frac_near (B := B) hf
  have hsplit : (2 : ℝ) ^ (-((f : ℝ) / B.exp2Fn)) / 2 ^ ip =
      2 ^ (-((ip : ℝ) + f / B.exp2Fn)) := by
    rw [neg_add, rpow_add two_pos, rpow_neg zero_le_two (ip : ℝ), rpow_natCast]
    ring
  split_ifs with h40
  · have hsmall : (2 : ℝ) ^ (-(neg : ℝ) / 2 ^ 16) ≤ 2 ^ (-28 : ℝ) := by
      apply rpow_le_rpow_of_exponent_le one_le_two
      have hip40 : (40 : ℝ) ≤ ip := by exact_mod_cast h40
      have hf0 : (0 : ℝ) ≤ f / B.exp2Fn := by positivity
      rw [neg_div]
      linarith
    have h28 : (2 : ℝ) ^ (-28 : ℝ) = 1 / 2 ^ 28 := by
      rw [rpow_neg zero_le_two, one_div]
      norm_cast
    rw [h28] at hsmall
    constructor
    · push_cast
      linarith
    · push_cast
      positivity
  · obtain ⟨hup, hdown⟩ := ediv_near (exp2Frac B f) (by positivity : (0 : Int) < 2 ^ ip)
    push_cast at hup hdown
    have hpos : (0 : ℝ) < 2 ^ ip := by positivity
    constructor
    · -- one unit is lost in the table, and one in the shift
      have hone : (1 : ℝ) / 2 ^ ip ≤ 1 := (div_le_one hpos).2 (one_le_pow₀ one_le_two)
      have hexp : (2 : ℝ) ^ (-(neg : ℝ) / 2 ^ 16) ≤ 2 ^ (-((f : ℝ) / B.exp2Fn)) / 2 ^ ip := by
        rw [hsplit]
        apply rpow_le_rpow_of_exponent_le one_le_two
        rw [neg_div]
        linarith
      calc (2 : ℝ) ^ 28 * 2 ^ (-(neg : ℝ) / 2 ^ 16) - 2
          ≤ 2 ^ 28 * (2 ^ (-((f : ℝ) / B.exp2Fn)) / 2 ^ ip) - 1 / 2 ^ ip - 1 := by linarith
        _ = (2 ^ 28 * 2 ^ (-((f : ℝ) / B.exp2Fn)) - 1) / 2 ^ ip - 1 := by ring
        _ ≤ exp2Frac B f / 2 ^ ip - 1 := by gcongr
        _ < _ := by linarith
    · -- the bits of the fraction that are not read
      have hbits : (2 : ℝ) ^ (1 / 2 ^ 12 : ℝ) ≤ 1 + 1 / 2 ^ 12 :=
        BitPower.two_rpow_le (by norm_num) (by norm_num)
      have hexp : (2 : ℝ) ^ (-((f : ℝ) / B.exp2Fn)) / 2 ^ ip ≤
          2 ^ (-(neg : ℝ) / 2 ^ 16) * (1 + 1 / 2 ^ 12) := by
        rw [hsplit]
        calc (2 : ℝ) ^ (-((ip : ℝ) + f / B.exp2Fn))
            ≤ 2 ^ (-(neg : ℝ) / 2 ^ 16 + 1 / 2 ^ 12) := by
              apply rpow_le_rpow_of_exponent_le one_le_two
              rw [neg_div]
              linarith
          _ = 2 ^ (-(neg : ℝ) / 2 ^ 16) * 2 ^ (1 / 2 ^ 12 : ℝ) := rpow_add two_pos _ _
          _ ≤ _ := by gcongr
      have hE : (0 : ℝ) < 2 ^ (-(neg : ℝ) / 2 ^ 16) := by positivity
      calc ((exp2Frac B f / 2 ^ ip : Int) : ℝ) ≤ exp2Frac B f / 2 ^ ip := hup
        _ ≤ 2 ^ 28 * 2 ^ (-((f : ℝ) / B.exp2Fn)) * (1024 / 1023) / 2 ^ ip := by gcongr
        _ = 2 ^ 28 * (2 ^ (-((f : ℝ) / B.exp2Fn)) / 2 ^ ip) * (1024 / 1023) := by ring
        _ ≤ 2 ^ 28 * (2 ^ (-(neg : ℝ) / 2 ^ 16) * (1 + 1 / 2 ^ 12)) * (1024 / 1023) := by gcongr
        _ ≤ 2 ^ 28 * 2 ^ (-(neg : ℝ) / 2 ^ 16) * (801 / 800) := by linarith

/-- `exp2_w` is the power of two at the scale of the weights, to a unit or two and one part
in 800. -/
theorem exp2W_near (B : Build) {norm : Int} (h : norm ≤ 0) (hint : -2 ^ 47 < norm) :
    ∃ w, exp2W B true norm = .ok w ∧
    2 ^ 28 * 2 ^ ((norm : ℝ) / 2 ^ 16) - 2 < (w : ℝ) ∧
      (w : ℝ) ≤ 2 ^ 28 * 2 ^ ((norm : ℝ) / 2 ^ 16) * (801 / 800) := by
  have hneg : norm = -((-norm).toNat : Int) := by omega
  have hreal : (norm : ℝ) = -((-norm).toNat : ℝ) := by exact_mod_cast hneg
  have hnear := expWeight_near B (-norm).toNat
  rw [← hreal, ← hneg] at hnear
  exact ⟨_, exp2W_true B h hint, hnear⟩

theorem exp2W_near_half : ∃ w, exp2W .plain true (-32768) = .ok w ∧
    2 ^ 28 * 2 ^ (((-32768 : Int) : ℝ) / 2 ^ 16) - 2 < (w : ℝ) ∧
      (w : ℝ) ≤ 2 ^ 28 * 2 ^ (((-32768 : Int) : ℝ) / 2 ^ 16) * (801 / 800) :=
  exp2W_near .plain (by decide) (by decide)

end Power

end Bcb.Bt
