import Mathlib.Analysis.SpecialFunctions.Pow.Real
import Mathlib.Analysis.Convex.SpecificFunctions.Basic
import Mathlib.Data.Nat.Sqrt
import Mathlib.Tactic.Ring
import Mathlib.Tactic.Linarith
import Mathlib.Tactic.Positivity

/-! Powers of two with `f` bits after the point: the roots `2^(1/2^k)` one from the other, and
a power as the product of the roots that the bits of its exponent name. -/

namespace Bcb.Lib.BitPower

/-- `2^(1/2^k)`. -/
def root (f : Nat) : Nat → Nat
  | 0 => 2 * 2 ^ f
  | k + 1 => Nat.sqrt (root f k * 2 ^ f)

/-- The product over the `k` highest of the `f` bits of `x`. -/
def power (f x : Nat) : Nat → Nat
  | 0 => 2 ^ f
  | k + 1 => if x.testBit (f - (k + 1)) then power f x k * root f (k + 1) / 2 ^ f else power f x k

/-- A unit in the last place. -/
noncomputable def ulp (f : Nat) : ℝ := 1 / (2 ^ f : Nat)

/-- `e` is `E` with `f` bits after the point, up to `k` units of its own last place too low. -/
structure Near (f : Nat) (k : ℝ) (e : Nat) (E : ℝ) : Prop where
  below : (e : ℝ) / 2 ^ f ≤ E
  above : E * (1 - k * ulp f) ≤ e / 2 ^ f

variable {f : Nat}

theorem two_rpow_le {t : ℝ} (h0 : 0 ≤ t) (h1 : t ≤ 1) : (2 : ℝ) ^ t ≤ 1 + t := by
  have h := rpow_one_add_le_one_add_mul_self (s := 1) (by norm_num) h0 h1
  rw [mul_one] at h
  norm_num at h
  linarith

theorem ulp_eq (f : Nat) : ulp f = 1 / 2 ^ f := by
  rw [ulp, Nat.cast_pow, Nat.cast_ofNat]

theorem ulp_pos (f : Nat) : 0 < ulp f := by
  unfold ulp
  positivity

theorem ulp_le (h : 2 ≤ f) : ulp f ≤ 1 / 4 := by
  have hpow : (4 : ℝ) ≤ 2 ^ f := by
    calc (4 : ℝ) = 2 ^ 2 := by norm_num
      _ ≤ 2 ^ f := pow_le_pow_right₀ one_le_two h
  rw [ulp_eq]
  exact one_div_le_one_div_of_le (by norm_num) hpow

theorem sqrt_near (x : Nat) : (Nat.sqrt (x * 2 ^ f) : ℝ) / 2 ^ f ≤ Real.sqrt (x / 2 ^ f) ∧
    Real.sqrt (x / 2 ^ f) ≤ Nat.sqrt (x * 2 ^ f) / 2 ^ f + ulp f := by
  have hf : (0 : ℝ) < 2 ^ f := by positivity
  have hle : (Nat.sqrt (x * 2 ^ f) : ℝ) * Nat.sqrt (x * 2 ^ f) ≤ x * 2 ^ f := by
    exact_mod_cast Nat.sqrt_le (x * 2 ^ f)
  have hlt : (x : ℝ) * 2 ^ f ≤ (Nat.sqrt (x * 2 ^ f) + 1) * (Nat.sqrt (x * 2 ^ f) + 1) := by
    exact_mod_cast (Nat.lt_succ_sqrt (x * 2 ^ f)).le
  have hscale : (x : ℝ) / 2 ^ f = x * 2 ^ f / (2 ^ f * 2 ^ f) := by field_simp
  constructor
  · apply Real.le_sqrt_of_sq_le
    rw [hscale, div_pow, sq, sq]
    gcongr
  · rw [ulp_eq, ← add_div]
    apply Real.sqrt_le_iff.2 ⟨by positivity, ?_⟩
    rw [hscale, div_pow, sq, sq]
    gcongr

theorem rpow_half (k : Nat) : (2 : ℝ) ^ (1 / 2 ^ (k + 1) : ℝ) = Real.sqrt (2 ^ (1 / 2 ^ k : ℝ)) := by
  rw [Real.sqrt_eq_rpow, ← Real.rpow_mul zero_le_two]
  congr 1
  rw [pow_succ]
  field_simp

theorem one_le_rpow_root (k : Nat) : (1 : ℝ) ≤ 2 ^ (1 / 2 ^ k : ℝ) :=
  Real.one_le_rpow one_le_two (by positivity)

theorem root_le (f k : Nat) : root f k ≤ 2 * 2 ^ f := by
  induction k with
  | zero => exact le_rfl
  | succ k ih =>
    have hmul : root f k * 2 ^ f ≤ 2 * 2 ^ f * (2 * 2 ^ f) :=
      Nat.mul_le_mul ih (Nat.le_mul_of_pos_left _ Nat.two_pos)
    calc root f (k + 1) ≤ Nat.sqrt (2 * 2 ^ f * (2 * 2 ^ f)) := Nat.sqrt_le_sqrt hmul
      _ = 2 * 2 ^ f := Nat.sqrt_eq _

theorem root_near (hf : 2 ≤ f) (k : Nat) : Near f 3 (root f k) (2 ^ (1 / 2 ^ k : ℝ)) := by
  have hu := ulp_pos f
  have hu4 := ulp_le hf
  have hpos : (0 : ℝ) < 2 ^ f := by positivity
  induction k with
  | zero =>
    have htwo : ((root f 0 : Nat) : ℝ) / 2 ^ f = 2 := by
      rw [root]
      push_cast
      field_simp
    have hone : (2 : ℝ) ^ (1 / 2 ^ 0 : ℝ) = 2 := by norm_num
    refine ⟨?_, ?_⟩ <;> rw [htwo, hone]
    linarith
  | succ k ih =>
    obtain ⟨hle, hge⟩ := sqrt_near (f := f) (root f k)
    have hT := one_le_rpow_root (k + 1)
    refine ⟨?_, ?_⟩
    · rw [root, rpow_half]
      exact hle.trans (Real.sqrt_le_sqrt ih.below)
    · -- the root of what has lost three units has lost at most two
      have hloss : 1 - 2 * ulp f ≤ Real.sqrt (1 - 3 * ulp f) := by
        apply Real.le_sqrt_of_sq_le
        nlinarith
      have hsqrt : 2 ^ (1 / 2 ^ (k + 1) : ℝ) * (1 - 2 * ulp f) ≤
          Real.sqrt ((root f k : ℝ) / 2 ^ f) := by
        calc 2 ^ (1 / 2 ^ (k + 1) : ℝ) * (1 - 2 * ulp f)
            ≤ 2 ^ (1 / 2 ^ (k + 1) : ℝ) * Real.sqrt (1 - 3 * ulp f) := by gcongr
          _ = Real.sqrt (2 ^ (1 / 2 ^ k : ℝ) * (1 - 3 * ulp f)) := by
            rw [rpow_half, Real.sqrt_mul (by positivity)]
          _ ≤ Real.sqrt ((root f k : ℝ) / 2 ^ f) := Real.sqrt_le_sqrt ih.above
      rw [root]
      nlinarith

/-- The exponent that the `k` highest bits of `x` make. -/
noncomputable def exponent (f x k : Nat) : ℝ := (x / 2 ^ (f - k) : Nat) / (2 ^ k : Nat)

theorem exponent_succ {x k : Nat} (hk : k < f) : exponent f x (k + 1) =
    exponent f x k + if x.testBit (f - (k + 1)) then 1 / 2 ^ (k + 1) else 0 := by
  have hsub : f - k = f - (k + 1) + 1 := by omega
  have hdigit : x / 2 ^ (f - (k + 1)) = 2 * (x / 2 ^ (f - k)) +
      if x.testBit (f - (k + 1)) then 1 else 0 := by
    have hmod := Nat.div_add_mod (x / 2 ^ (f - (k + 1))) 2
    rw [Nat.div_div_eq_div_mul, ← pow_succ, ← hsub] at hmod
    rw [Nat.testBit_eq_decide_div_mod_eq]
    have hlt := Nat.mod_lt (x / 2 ^ (f - (k + 1))) Nat.two_pos
    by_cases h : x / 2 ^ (f - (k + 1)) % 2 = 1
    · simp only [h, decide_true, if_true]
      omega
    · simp only [h, decide_false, Bool.false_eq_true, if_false]
      omega
  rw [exponent, hdigit, exponent, Nat.cast_pow, Nat.cast_pow, Nat.cast_ofNat, pow_succ]
  split_ifs
  · push_cast
    field_simp
  · push_cast
    rw [add_zero, add_zero]
    field_simp

@[simp] theorem exponent_full (x : Nat) : exponent f x f = x / 2 ^ f := by
  rw [exponent, Nat.sub_self, pow_zero, Nat.div_one, Nat.cast_pow, Nat.cast_ofNat]

theorem Near.mul {k l : ℝ} {e t : Nat} {E T : ℝ} (hE : 1 ≤ E) (hT : 1 ≤ T) (hk : 0 ≤ k)
    (hl : 0 ≤ l) (hlu : l * ulp f ≤ 1) (he : Near f k e E) (ht : Near f l t T) :
    Near f (k + l + 1) (e * t / 2 ^ f) (E * T) := by
  have hf : (0 : ℝ) < 2 ^ f := by positivity
  have hu := ulp_pos f
  have hET : 1 ≤ E * T := one_le_mul_of_one_le_of_one_le hE hT
  have hprod : (e : ℝ) / 2 ^ f * (t / 2 ^ f) = e * t / 2 ^ f / 2 ^ f := by ring
  constructor
  · calc ((e * t / 2 ^ f : Nat) : ℝ) / 2 ^ f ≤ e * t / 2 ^ f / 2 ^ f := by
          gcongr
          exact_mod_cast Nat.cast_div_le (α := ℝ) (m := e * t) (n := 2 ^ f)
      _ = e / 2 ^ f * (t / 2 ^ f) := hprod.symm
      _ ≤ E * T := mul_le_mul he.below ht.below (by positivity) (by linarith)
  · have hfloor : (e : ℝ) * t / 2 ^ f ≤ (e * t / 2 ^ f : Nat) + 1 := by
      rw [div_le_iff₀ hf]
      exact_mod_cast (Nat.lt_mul_of_div_lt (Nat.lt_succ_self (e * t / 2 ^ f))
        (Nat.two_pow_pos f)).le
    have hulp : (e : ℝ) * t / 2 ^ f / 2 ^ f - ulp f ≤ (e * t / 2 ^ f : Nat) / 2 ^ f := by
      rw [ulp_eq, ← sub_div]
      gcongr
      linarith
    have hlow : E * T * ((1 - k * ulp f) * (1 - l * ulp f)) ≤ e / 2 ^ f * (t / 2 ^ f) := by
      calc E * T * ((1 - k * ulp f) * (1 - l * ulp f))
          = E * (1 - k * ulp f) * (T * (1 - l * ulp f)) := by ring
        _ ≤ e / 2 ^ f * (t / 2 ^ f) := by
          apply mul_le_mul he.above ht.above
          · exact mul_nonneg (by linarith) (by linarith)
          · positivity
    have hkl : 0 ≤ k * ulp f * (l * ulp f) := by positivity
    calc E * T * (1 - (k + l + 1) * ulp f)
        ≤ E * T * ((1 - k * ulp f) * (1 - l * ulp f)) - E * T * ulp f := by
          rw [← mul_sub]
          apply mul_le_mul_of_nonneg_left _ (by linarith)
          nlinarith
      _ ≤ E * T * ((1 - k * ulp f) * (1 - l * ulp f)) - ulp f := by
          have := le_mul_of_one_le_left hu.le hET
          linarith
      _ ≤ (e * t / 2 ^ f : Nat) / 2 ^ f := by
          rw [hprod] at hlow
          linarith

theorem Near.mono {k l : ℝ} {e : Nat} {E : ℝ} (hE : 0 ≤ E) (hkl : k ≤ l) (h : Near f k e E) :
    Near f l e E := by
  refine ⟨h.below, le_trans ?_ h.above⟩
  have hu := ulp_pos f
  gcongr

/-- Each bit costs four units. -/
theorem power_near (hf : 2 ≤ f) {x : Nat} (hx : x < 2 ^ f) {k : Nat} (hk : k ≤ f) :
    Near f (4 * k) (power f x k) (2 ^ exponent f x k) := by
  have hu := ulp_pos f
  have hu4 := ulp_le hf
  have hexp : ∀ j, 0 ≤ exponent f x j := fun j => by
    unfold exponent
    positivity
  induction k with
  | zero =>
    have hone : ((power f x 0 : Nat) : ℝ) / 2 ^ f = 1 := by
      rw [power]
      push_cast
      exact div_self (by positivity)
    have hzero : (2 : ℝ) ^ exponent f x 0 = 1 := by
      rw [exponent, Nat.sub_zero, Nat.div_eq_of_lt hx, Nat.cast_zero, zero_div, Real.rpow_zero]
    refine ⟨?_, ?_⟩ <;> rw [hone, hzero]
    simp
  | succ k ih =>
    have ih := ih (Nat.le_of_succ_le hk)
    have hE : (1 : ℝ) ≤ 2 ^ exponent f x k := Real.one_le_rpow one_le_two (hexp k)
    rw [exponent_succ (Nat.lt_of_succ_le hk), power]
    push_cast
    split_ifs with hbit
    · rw [Real.rpow_add two_pos]
      have hmul := ih.mul hE (one_le_rpow_root (k + 1)) (by positivity) (by norm_num)
        (by linarith) (root_near hf (k + 1))
      exact hmul.mono (by positivity) (by linarith)
    · rw [add_zero]
      exact ih.mono (by positivity) (by linarith)

end Bcb.Lib.BitPower
