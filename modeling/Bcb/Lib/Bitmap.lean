import Mathlib.Logic.Function.Basic
import Mathlib.Tactic.Ring

namespace Bcb.Lib.Bitmap

variable {m : Nat → UInt8} {i k : Nat}

def Has (m : Nat → UInt8) (i k : Nat) : Prop := (m i).toNat.testBit (k % 8) = true

/-- `m[i] |= 1<<k`. -/
def insert (i : Nat) (k : UInt8) (m : Nat → UInt8) : Nat → UInt8 :=
  Function.update m i (m i ||| 1 <<< k)

theorem toNat_low (ch : UInt32) : (ch &&& 7).toUInt8.toNat = ch.toNat % 8 := by
  have hand : ch.toNat &&& (7 : UInt32).toNat = ch.toNat % 8 :=
    Nat.and_two_pow_sub_one_eq_mod ch.toNat 3
  rw [UInt32.toNat_toUInt8, UInt32.toNat_and, hand]
  omega

theorem insert_toNat (i : Nat) (k : UInt8) (m : Nat → UInt8) (j : Nat) :
    (insert i k m j).toNat = (m j).toNat ||| if j = i then 2 ^ (k.toNat % 8) else 0 := by
  have hshift : ((1 : UInt8) <<< k).toNat = 2 ^ (k.toNat % 8) := by
    have hlt := Nat.mod_lt k.toNat (by decide : 0 < 8)
    have hpow : 2 ^ (k.toNat % 8) < 2 ^ 8 := Nat.pow_lt_pow_right (by decide) hlt
    rw [UInt8.toNat_shiftLeft, Nat.shiftLeft_eq, UInt8.toNat_one, Nat.one_mul,
      Nat.mod_eq_of_lt hpow]
  rw [insert, Function.update_apply]
  split_ifs with hj
  · rw [UInt8.toNat_or, hshift, hj]
  · rw [Nat.or_zero]

theorem insert_has (i : Nat) (k : UInt8) (m : Nat → UInt8) : Has (insert i k m) i k.toNat := by
  rw [Has, insert_toNat, if_pos rfl, Nat.testBit_or, Nat.testBit_two_pow_self, Bool.or_true]

theorem insert_low (i : Nat) (ch : UInt32) (m : Nat → UInt8) :
    (insert i (ch &&& 7).toUInt8 m i).toNat.testBit (ch.toNat % 8) = true := by
  have h := insert_has i (ch &&& 7).toUInt8 m
  rwa [Has, toNat_low, Nat.mod_mod] at h

theorem Has.insert (h : Has m i k) (j : Nat) (l : UInt8) : Has (insert j l m) i k := by
  rw [Has] at h ⊢
  rw [insert_toNat, Nat.testBit_or, h, Bool.true_or]

end Bcb.Lib.Bitmap
