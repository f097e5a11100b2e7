import Bcb.Machine

/-! The build settings of `btv3.c` and `bcb_prior.c`. -/

namespace Bcb

/-- How the count tables are sized: `BCB_MCU`, `BCB_POOL_BITS` or neither. -/
inductive Sizing
  | mcu
  | fixed (poolBits : Nat)
  | dynamic
  deriving DecidableEq

structure Build where
  sizing : Sizing
  /-- not `BCB_NO_DISTCACHE` -/
  distcache : Bool
  /-- `BCB_DISTCACHE_PER_MSG_CLEAR` -/
  perMsgClear : Bool
  /-- not `BCB_SDELTA_NO_PRECOMPUTE` -/
  precompute : Bool

/-- `BT_MAX_DEPTH` and `BCB_BT_MAX_DEPTH`. -/
abbrev btMaxDepth : Nat := 24

/-- `SCHEMA_MAX`. -/
def schemaMax : Nat := 1024

namespace Build

/-- The build without macros. -/
def plain : Build := ⟨.dynamic, true, false, true⟩

def bloomLog (B : Build) : Nat :=
  match B.sizing with
  | .mcu => 18
  | .fixed _ => 24
  | .dynamic => 24

def presBits (B : Build) : Nat :=
  match B.sizing with
  | .mcu => 12
  | .fixed _ => 16
  | .dynamic => 16

/-- `EXP2_FB`. -/
def exp2Fb (B : Build) : Nat :=
  match B.sizing with
  | .mcu => 12
  | .fixed _ => 16
  | .dynamic => 16

def bloomBits (B : Build) : Nat := 2 ^ B.bloomLog

def bloomMask (B : Build) : Nat := B.bloomBits - 1

def pres (B : Build) : Nat := 2 ^ B.presBits

def exp2Fn (B : Build) : Nat := 2 ^ B.exp2Fb

theorem presBits_le (B : Build) : B.presBits ≤ 16 := by
  unfold presBits
  cases B.sizing <;> simp

theorem bloomLog_le (B : Build) : B.bloomLog ≤ 24 := by
  unfold bloomLog
  cases B.sizing <;> simp

theorem three_le_bloomLog (B : Build) : 3 ≤ B.bloomLog := by
  unfold bloomLog
  cases B.sizing <;> simp

theorem pres_pos (B : Build) : 0 < B.pres := Nat.two_pow_pos _

theorem pres_le (B : Build) : B.pres ≤ 2 ^ 16 :=
  Nat.pow_le_pow_right (by decide) B.presBits_le

theorem exp2Fn_pos (B : Build) : 0 < B.exp2Fn := Nat.two_pow_pos _

end Build

end Bcb
