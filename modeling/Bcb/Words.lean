import Bcb.Machine

/-! Unsigned arithmetic of 32 and 64 bits, for every behaviour out of range.  A result that is
the same for all of them is one that no step has wrapped around. -/

namespace Bcb

structure Words where
  u32 : Nat → Outcome Nat
  u64 : Nat → Outcome Nat
  sub32 : Nat → Nat → Outcome Nat
  sub64 : Nat → Nat → Outcome Nat
  u32_of_lt : ∀ {x : Nat}, x < 2 ^ 32 → u32 x = .ok x
  u64_of_lt : ∀ {x : Nat}, x < 2 ^ 64 → u64 x = .ok x
  sub32_of_le : ∀ {a b : Nat}, b ≤ a → a < 2 ^ 32 → sub32 a b = .ok (a - b)
  sub64_of_le : ∀ {a b : Nat}, b ≤ a → a < 2 ^ 64 → sub64 a b = .ok (a - b)

namespace Words

/-- The C program. -/
def wrapping : Words where
  u32 x := pure (x % 2 ^ 32)
  u64 x := pure (x % 2 ^ 64)
  sub32 a b := pure (Bcb.sub32 a b)
  sub64 a b := pure ((a + 2 ^ 64 - b) % 2 ^ 64)
  u32_of_lt h := congrArg Except.ok (Nat.mod_eq_of_lt h)
  u64_of_lt h := congrArg Except.ok (Nat.mod_eq_of_lt h)
  sub32_of_le hb ha := congrArg Except.ok (Bcb.sub32_of_le hb ha)
  sub64_of_le hb ha := congrArg Except.ok (by omega)

/-- A sanitizer. -/
def checked : Words where
  u32 x := if x < 2 ^ 32 then pure x else throw .overflow
  u64 x := if x < 2 ^ 64 then pure x else throw .overflow
  sub32 a b := if b ≤ a then pure (a - b) else throw .overflow
  sub64 a b := if b ≤ a then pure (a - b) else throw .overflow
  u32_of_lt h := if_pos h
  u64_of_lt h := if_pos h
  sub32_of_le hb _ := if_pos hb
  sub64_of_le hb _ := if_pos hb

end Words

/-- An array with a place for each byte, filled in order. -/
def forBytes (f : UInt8 → Outcome Nat) : Outcome (UInt8 → Nat) := do
  let l ← (List.range 256).mapM fun b => f (UInt8.ofNat b)
  return fun b => l.getD b.toNat 0

theorem forBytes_ok {f : UInt8 → Outcome Nat} {g : UInt8 → Nat} (h : ∀ b, f b = .ok (g b)) :
    forBytes f = .ok g := by
  rw [forBytes, mapM_eq_map fun b _ => h (UInt8.ofNat b), ok_bind]
  refine congrArg Except.ok (funext fun b => ?_)
  have hb : b.toNat < 256 := b.toNat_lt
  rw [List.getD_eq_getElem?_getD, List.getElem?_map, List.getElem?_range hb]
  exact congrArg g UInt8.ofNat_toNat

end Bcb
