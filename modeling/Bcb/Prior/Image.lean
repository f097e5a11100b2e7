import Bcb.Bt.Reader

namespace Bcb

structure Image where
  len : Nat
  byte : Fin len → UInt8

namespace Image

variable (im : Image)

/-- The byte at an offset, read after `region` has allowed it. -/
def byteAt (i : Nat) : UInt8 := if h : i < im.len then im.byte ⟨i, h⟩ else 0

/-- A read of `n` bytes from `off` on. -/
def region (off n : Nat) : Outcome Unit := if off + n ≤ im.len then pure () else throw .oob

/-- The little-endian number in `k` bytes. -/
def le (off : Nat) : Nat → Nat
  | 0 => 0
  | k + 1 => le off k + 256 ^ k * (im.byteAt (off + k)).toNat

def bytesAt (off n : Nat) : List UInt8 := (List.range n).map fun i => im.byteAt (off + i)

def i32 (off : Nat) : Int := toInt32 (im.le off 4)

def u32 (off : Nat) : UInt32 := UInt32.ofNat (im.le off 4)

/-- A row of 256 `uint16_t`. -/
def row16 (off : Nat) (b : UInt8) : Nat := im.le (off + 2 * b.toNat) 2

theorem region_ok {off n : Nat} (h : off + n ≤ im.len) : im.region off n = .ok () := if_pos h

theorem le_lt (off k : Nat) : im.le off k < 256 ^ k := by
  induction k with
  | zero => exact Nat.one_pos
  | succ k ih =>
    have hb := (im.byteAt (off + k)).toNat_lt
    rw [le, pow_succ]
    calc im.le off k + 256 ^ k * (im.byteAt (off + k)).toNat
        < 256 ^ k + 256 ^ k * (im.byteAt (off + k)).toNat := Nat.add_lt_add_right ih _
      _ = 256 ^ k * ((im.byteAt (off + k)).toNat + 1) := by ring
      _ ≤ 256 ^ k * 256 := Nat.mul_le_mul_left _ hb

theorem i32_lt (off : Nat) : im.i32 off < 2 ^ 31 := toInt32_lt (im.le off 4)

theorem row16_lt (off : Nat) (b : UInt8) : im.row16 off b < 2 ^ 16 := im.le_lt _ 2

end Image

end Bcb
