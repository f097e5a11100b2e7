import Bcb.RangeCoder.Defs
import Mathlib.Tactic.Linarith

/-! Both renormalisation loops subtract the same amount from both ends and then
double; the amount depends on `low` and `high` only. -/

namespace Bcb.RangeCoder

open Lib

/-- What a turn subtracts before it doubles, `none` at the break. -/
def renormShift (low high : Nat) : Option Nat :=
  if high < 2 ^ 31 then some 0
  else if 2 ^ 31 ≤ low then some (2 ^ 31)
  else if 2 ^ 30 ≤ low ∧ high < 3 * 2 ^ 30 then some (2 ^ 30)
  else none

theorem renormShift_cases {low high c : Nat} (h : renormShift low high = some c) :
    (c = 0 ∧ high < 2 ^ 31) ∨ (c = 2 ^ 31 ∧ 2 ^ 31 ≤ low ∧ 2 ^ 31 ≤ high) ∨
      (c = 2 ^ 30 ∧ 2 ^ 30 ≤ low ∧ low < 2 ^ 31 ∧ 2 ^ 31 ≤ high ∧ high < 3 * 2 ^ 30) := by
  unfold renormShift at h
  split_ifs at h with h1 h2 h3
  · exact .inl ⟨(Option.some.inj h).symm, h1⟩
  · exact .inr (.inl ⟨(Option.some.inj h).symm, h2, Nat.le_of_not_lt h1⟩)
  · exact .inr (.inr ⟨(Option.some.inj h).symm, h3.1, by omega, by omega, h3.2⟩)

/-- At the break the interval straddles the middle and keeps a quarter of the range. -/
theorem renormShift_none {low high : Nat} (h : renormShift low high = none) :
    2 ^ 30 ≤ high - low ∧ low < 2 ^ 31 ∧ 2 ^ 31 ≤ high ∧ (2 ^ 30 ≤ low → 3 * 2 ^ 30 ≤ high) := by
  unfold renormShift at h
  split_ifs at h with h1 h2 h3
  omega

@[simp] theorem cecShiftCode_low (d : CecDecoder) : (cecShiftCode d).low = d.low := by
  simp only [cecShiftCode, cecReadBit]
  split_ifs <;> rfl

@[simp] theorem cecShiftCode_high (d : CecDecoder) : (cecShiftCode d).high = d.high := by
  simp only [cecShiftCode, cecReadBit]
  split_ifs <;> rfl

@[simp] theorem cecEmitBit_low (e : CecEncoder) (b : Bool) : (cecEmitBit e b).low = e.low := by
  simp only [cecEmitBit]
  split_ifs <;> rfl

@[simp] theorem cecEmitBit_high (e : CecEncoder) (b : Bool) : (cecEmitBit e b).high = e.high := by
  simp only [cecEmitBit]
  split_ifs <;> rfl

@[simp] theorem cecFlushPending_low (b : Bool) (n : Nat) (e : CecEncoder) :
    (cecFlushPending b n e).low = e.low := by
  induction n generalizing e with
  | zero => rfl
  | succ n ih => simp [cecFlushPending, ih]

@[simp] theorem cecFlushPending_high (b : Bool) (n : Nat) (e : CecEncoder) :
    (cecFlushPending b n e).high = e.high := by
  induction n generalizing e with
  | zero => rfl
  | succ n ih => simp [cecFlushPending, ih]

@[simp] theorem cecFlush_low (e : CecEncoder) (b : Bool) : (cecFlush e b).low = e.low := by
  simp [cecFlush]

@[simp] theorem cecFlush_high (e : CecEncoder) (b : Bool) : (cecFlush e b).high = e.high := by
  simp [cecFlush]

theorem cecRenormEncTurn_none {e : CecEncoder} :
    cecRenormEncTurn e = none ↔ renormShift e.low e.high = none := by
  unfold cecRenormEncTurn renormShift
  split_ifs <;> simp

theorem cecRenormEncTurn_ends {e e' : CecEncoder} (h : cecRenormEncTurn e = some e') :
    ∃ c, renormShift e.low e.high = some c ∧
      e'.low = 2 * (e.low - c) % 2 ^ 32 ∧ e'.high = (2 * (e.high - c) + 1) % 2 ^ 32 := by
  unfold cecRenormEncTurn at h
  unfold renormShift
  split_ifs at h ⊢ <;>
    · obtain rfl := Option.some.inj h
      exact ⟨_, rfl, by simp [cecShiftEnc], by simp [cecShiftEnc]⟩

theorem cecRenormDecTurn_none {d : CecDecoder} :
    cecRenormDecTurn d = none ↔ renormShift d.low d.high = none := by
  unfold cecRenormDecTurn renormShift
  split_ifs <;> simp

theorem cecRenormDecTurn_some {d d' : CecDecoder} (h : cecRenormDecTurn d = some d') :
    ∃ c, renormShift d.low d.high = some c ∧
      d' = cecShiftDec { d with
        code := if c = 0 then d.code else sub32 d.code c, low := d.low - c, high := d.high - c } := by
  unfold cecRenormDecTurn at h
  unfold renormShift
  split_ifs at h ⊢ <;>
    · obtain rfl := Option.some.inj h
      exact ⟨_, rfl, by simp⟩

theorem cecRenormDecTurn_ends {d d' : CecDecoder} (h : cecRenormDecTurn d = some d') :
    ∃ c, renormShift d.low d.high = some c ∧
      d'.low = 2 * (d.low - c) % 2 ^ 32 ∧ d'.high = (2 * (d.high - c) + 1) % 2 ^ 32 := by
  obtain ⟨c, hc, rfl⟩ := cecRenormDecTurn_some h
  exact ⟨c, hc, cecShiftCode_low _, cecShiftCode_high _⟩

/-- After `k` turns from any 32-bit ends, the low `k` bits of `low` are zeros
and those of `high` are ones, up to the top bit. -/
def Aligned (k low high : Nat) : Prop :=
  low < 2 ^ 32 ∧ high < 2 ^ 32 ∧
    if k < 32 then 2 ^ k ∣ low ∧ 2 ^ k ∣ high + 1 else low = 0 ∧ high + 1 = 2 ^ 32

theorem Aligned.init {low high : Nat} (hl : low < 2 ^ 32) (hh : high < 2 ^ 32) :
    Aligned 0 low high := ⟨hl, hh, by simp⟩

theorem dvd_two_mul_sub_mod {k x c : Nat} (hk : k < 31) (hx : 2 ^ k ∣ x) (hc : 2 ^ 30 ∣ c) :
    2 ^ (k + 1) ∣ 2 * (x - c) % 2 ^ 32 := by
  have h2x : 2 ^ (k + 1) ∣ 2 * x := by
    rw [pow_succ, Nat.mul_comm]
    exact Nat.mul_dvd_mul_left 2 hx
  have h2c : 2 ^ (k + 1) ∣ 2 * c :=
    calc 2 ^ (k + 1) ∣ 2 ^ 31 := Nat.pow_dvd_pow 2 (by omega)
      _ ∣ 2 * c := Nat.mul_dvd_mul_left 2 hc
  rw [Nat.dvd_mod_iff (Nat.pow_dvd_pow 2 (by omega)), Nat.mul_sub]
  exact Nat.dvd_sub h2x h2c

theorem Aligned.turn {k low high c : Nat} (h : Aligned k low high)
    (hc : renormShift low high = some c) :
    Aligned (k + 1) (2 * (low - c) % 2 ^ 32) ((2 * (high - c) + 1) % 2 ^ 32) := by
  obtain ⟨hl, hh, hk⟩ := h
  have hcs := renormShift_cases hc
  refine ⟨Nat.mod_lt _ (by norm_num), Nat.mod_lt _ (by norm_num), ?_⟩
  split_ifs at hk ⊢ with hk1 hk2
  · -- the bit brought in is exact: `c` only touches the top two bits
    have hcd : 2 ^ 30 ∣ c := by
      rcases hcs with ⟨rfl, _⟩ | ⟨rfl, _⟩ | ⟨rfl, _⟩
      · exact Nat.dvd_zero _
      · exact ⟨2, rfl⟩
      · exact Nat.dvd_refl _
    have hlow := dvd_two_mul_sub_mod (by omega) hk.1 hcd
    have hhigh := dvd_two_mul_sub_mod (by omega) hk.2 hcd
    refine ⟨hlow, ?_⟩
    have heq : (2 * (high - c) + 1) % 2 ^ 32 + 1 = 2 * (high + 1 - c) % 2 ^ 32 ∨
        (2 * (high - c) + 1) % 2 ^ 32 + 1 = 2 ^ 32 := by omega
    rcases heq with heq | heq
    · rwa [heq]
    · rw [heq]
      exact Nat.pow_dvd_pow 2 (by omega)
  · omega
  · have hk31 : k = 31 := by omega
    subst hk31
    obtain ⟨⟨a, ha⟩, ⟨b, hb⟩⟩ := hk
    omega
  · omega

theorem Aligned.stop {low high : Nat} (h : Aligned 32 low high) : renormShift low high = none := by
  obtain ⟨-, -, h⟩ := h
  simp only [lt_irrefl, if_false] at h
  unfold renormShift
  split_ifs with h1 h2 h3
  · omega
  · omega
  · omega
  · rfl

theorem cecRenormEnc_done {e : CecEncoder} (hl : e.low < 2 ^ 32) (hh : e.high < 2 ^ 32) :
    cecRenormEncTurn (cecRenormEnc e) = none := by
  refine Loop.run_done (P := fun k e => Aligned k e.low e.high) (m := 32) ?_ ?_ (Nat.zero_add 32)
    (Aligned.init hl hh)
  · intro k a b ha hab
    obtain ⟨c, hc, hlow, hhigh⟩ := cecRenormEncTurn_ends hab
    rw [hlow, hhigh]
    exact ha.turn hc
  · intro a ha
    exact cecRenormEncTurn_none.2 ha.stop

theorem cecRenormDec_done {d : CecDecoder} (hl : d.low < 2 ^ 32) (hh : d.high < 2 ^ 32) :
    cecRenormDecTurn (cecRenormDec d) = none := by
  refine Loop.run_done (P := fun k d => Aligned k d.low d.high) (m := 32) ?_ ?_ (Nat.zero_add 32)
    (Aligned.init hl hh)
  · intro k a b ha hab
    obtain ⟨c, hc, hlow, hhigh⟩ := cecRenormDecTurn_ends hab
    rw [hlow, hhigh]
    exact ha.turn hc
  · intro a ha
    exact cecRenormDecTurn_none.2 ha.stop

end Bcb.RangeCoder
