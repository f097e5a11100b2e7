import Bcb.Bt.Luts
import Bcb.Lib.Probe
import Bcb.Lib.Chain

namespace Bcb.Bt

open Lib

/-- The bytes in `ctx` after the first `ctxLen` are whatever the memory held. -/
structure BtEntry where
  ctx : Fin btMaxDepth → UInt8
  ctxLen : UInt8
  nextByte : UInt8
  freq : UInt32
  ctxNext : Int

structure CtxEntry where
  ctx : Fin btMaxDepth → UInt8
  ctxLen : UInt8
  totalFreq : UInt32
  uniqueNext : UInt32
  firstEntry : Int

def fnv (d : List UInt8) : UInt32 := d.foldl (fun h b => (h ^^^ b.toUInt32) * 16777619) 2166136261

/-- `e->ctx_len==cl && memcmp(e->ctx,ctx,cl)==0`. -/
def sameCtx (ectx : Fin btMaxDepth → UInt8) (ectxLen : UInt8) (ctx : List UInt8) : Bool :=
  ectxLen.toNat = ctx.length && (List.ofFn ectx).take ctx.length = ctx

/-- An `int` index as a link, negative at the end of a chain. -/
def link (idx : Int) : Option Nat := if idx < 0 then none else some idx.toNat

theorem link_toInt32 {k : Nat} (h : k < 2 ^ 32) :
    link (toInt32 k) = if k < 2 ^ 31 then some k else none := by
  unfold link
  split_ifs with h0 h1 h1
  · rw [toInt32_of_lt (by omega) (by omega)] at h0
    omega
  · rfl
  · rw [toInt32_of_lt (by omega) (by omega), Int.toNat_natCast]
  · unfold toInt32 at h0
    have hb : ((k : Int).bmod (2 ^ 32)) = k - 2 ^ 32 := by
      rw [Int.bmod_eq_emod, Int.emod_eq_of_lt (by omega) (by omega)]
      rw [if_pos (by omega)]
      norm_num
    omega

/-- The last bytes of a message, at most `BT_MAX_DEPTH` of them. -/
structure Window where
  bytes : List UInt8
  length_le : bytes.length ≤ btMaxDepth

namespace Window

def empty : Window := ⟨[], Nat.zero_le _⟩

/-- `bt_v3_reader_push`. -/
def push (w : Window) (b : UInt8) : Window :=
  if h : w.bytes.length < btMaxDepth then ⟨w.bytes ++ [b], by
    rw [List.length_append]
    exact h⟩
  else ⟨w.bytes.drop 1 ++ [b], by
    have hle := w.length_le
    simp only [List.length_append, List.length_drop, List.length_singleton]
    simp only [btMaxDepth] at h hle ⊢
    omega⟩

/-- `win + (wl-n)`. -/
def last (w : Window) (n : Nat) : List UInt8 := w.bytes.drop (w.bytes.length - n)

theorem eq_of_bytes {w w' : Window} (h : w.bytes = w'.bytes) : w = w' := by
  cases w
  cases w'
  cases h
  rfl

theorem last_length (w : Window) {n : Nat} (h : n ≤ w.bytes.length) : (w.last n).length = n := by
  rw [last, List.length_drop]
  omega

end Window

/-- The read-only tables, wherever they lie, and the window of one instance. -/
structure BtV3Reader where
  pool : Nat → Outcome BtEntry
  ctxPool : Nat → Outcome CtxEntry
  ctxSlot : Nat → Outcome Int
  bloom : Nat → Outcome UInt8
  ctxMask : Nat
  window : Window

/-- `h = (h+1) & mask` on `unsigned int`. -/
def nextSlot (mask h : Nat) : Nat := (h + 1) % 2 ^ 32 &&& mask

/-- One turn of the loop of `ctx_find_rd`. -/
def ctxFindTest (r : BtV3Reader) (ctx : List UInt8) (h : Nat) :
    Outcome (Option (Option CtxEntry)) := do
  let s ← r.ctxSlot h
  match link s with
  | none => return some none
  | some i =>
    let e ← r.ctxPool i
    return if sameCtx e.ctx e.ctxLen ctx then some (some e) else none

/-- A loop that has met as many slots as there are never ends. -/
def ctxFindRd (r : BtV3Reader) (ctx : List UInt8) (ch : UInt32) : Outcome (Option CtxEntry) :=
  Probe.run .diverge (nextSlot r.ctxMask) (ctxFindTest r ctx) (r.ctxMask + 1)
    (ch.toNat &&& r.ctxMask)

/-- `bloom[(ch&BLOOM_MASK)>>3] & (1<<(ch&7))`. -/
def bloomBit (B : Build) (bloom : Nat → Outcome UInt8) (ch : UInt32) : Outcome Bool := do
  let byte ← bloom ((ch.toNat &&& B.bloomMask) / 8)
  return byte.toNat.testBit (ch.toNat % 8)

def bloomChkRd (B : Build) (bloom : Nat → Outcome UInt8) (ctx : List UInt8) : Outcome Bool := do
  let ch := fnv ctx
  if !(← bloomBit B bloom ch) then return false
  bloomBit B bloom (ch * 2654435761)

/-- `for (idx=cc->first_entry; idx>=0; idx=pool[idx].ctx_next)`.  There are `2^31`
indices: a longer walk has met one of them twice. -/
def nextBytes (r : BtV3Reader) (cc : CtxEntry) : Outcome (List BtEntry) :=
  walk .diverge r.pool (fun e => link e.ctxNext) (2 ^ 31 + 1) (link cc.firstEntry)

/-- The lookups `bt_v3_distribution_r` makes for the last `n` bytes: the active context,
if there is one, and its chain. -/
def activeAt (B : Build) (r : BtV3Reader) (n : Nat) :
    Outcome (Option (CtxEntry × List BtEntry)) := do
  let ctx := r.window.last n
  if !(← bloomChkRd B r.bloom ctx) then return none
  match ← ctxFindRd r ctx (fnv ctx) with
  | none => return none
  | some cc =>
    if cc.totalFreq = 0 then return none
    let chain ← nextBytes r cc
    return some (cc, chain)

end Bcb.Bt
