import Bcb.Bt.Train
import Bcb.V0.Pool

/-! `bt_model.c`, the first model, as far as it counts: `bt_v4_init`, `bt_v4_train` and the
lookups of `predict_byte`, which goes on in `double`.  Contexts are hashed, compared and copied
as in `btv3.c`, and the window is the same. -/

namespace Bcb.V0

open Lib Bt

/-- `BT_BUCKETS`. -/
def btBuckets : Nat := 2 ^ 18

/-- `BT_POOL`. -/
def btPool : Nat := 8 * 1024 * 1024

/-- `CTX_BUCKETS`. -/
def ctxBuckets : Nat := 2 ^ 19

/-- `CTX_POOL`. -/
def ctxPool : Nat := 4 * 1024 * 1024

def bloomBits : Nat := 2 ^ 22

def bloomMask : Nat := bloomBits - 1

structure BtEntry where
  ctx : Fin btMaxDepth → UInt8
  ctxLen : UInt8
  nextByte : UInt8
  freq : UInt32
  chain : Int

structure CtxEntry where
  ctx : Fin btMaxDepth → UInt8
  ctxLen : UInt8
  totalFreq : UInt32
  uniqueNext : UInt32
  chain : Int

structure Globals where
  table : Pool BtEntry
  ctx : Pool CtxEntry
  bloom : Nat → UInt8
  window : Window

/-- `e->ctx_len==cl && e->next_byte==next && memcmp(e->ctx,ctx,cl)==0`. -/
def btSame (ctx : List UInt8) (next : UInt8) (e : BtEntry) : Bool :=
  sameCtx e.ctx e.ctxLen ctx && e.nextByte = next

def ctxSame (ctx : List UInt8) (e : CtxEntry) : Bool := sameCtx e.ctx e.ctxLen ctx

/-- `nh=ch; nh^=next; nh*=16777619u; nh&=(BT_BUCKETS-1)`. -/
def btBucket (ch : UInt32) (next : UInt8) : Nat := (btKey ch next).toNat &&& (btBuckets - 1)

def ctxBucket (ch : UInt32) : Nat := ch.toNat &&& (ctxBuckets - 1)

def newBtEntry (ctx : List UInt8) (next : UInt8) (chain : Int) (old : BtEntry) : BtEntry where
  ctx := copyCtx old.ctx ctx
  ctxLen := UInt8.ofNat ctx.length
  nextByte := next
  freq := 1
  chain := chain

def newCtxEntry (ctx : List UInt8) (chain : Int) (old : CtxEntry) : CtxEntry where
  ctx := copyCtx old.ctx ctx
  ctxLen := UInt8.ofNat ctx.length
  totalFreq := 0
  uniqueNext := 0
  chain := chain

def ctxFindH (ctx : List UInt8) (ch : UInt32) (t : Pool CtxEntry) : Outcome (Option Nat) :=
  t.find CtxEntry.chain (ctxSame ctx) (ctxBucket ch)

/-- `none` for NULL, where the pool is full. -/
def ctxGetH (ctx : List UInt8) (ch : UInt32) (t : Pool CtxEntry) :
    Outcome (Option Nat × Pool CtxEntry) := do
  match ← ctxFindH ctx ch t with
  | some i => return (some i, t)
  | none =>
    if ctxPool ≤ t.used then return (none, t)
    let b := ctxBucket ch
    return (some t.used, t.push b (newCtxEntry ctx (t.buckets b) (t.pool t.used)))

/-- `g_bloom[(ch&BLOOM_MASK)>>3] |= (1<<(ch&7))`. -/
def bloomSetBit (ch : UInt32) (bloom : Nat → UInt8) : Nat → UInt8 :=
  let i := (ch.toNat &&& bloomMask) / 8
  Function.update bloom i (bloom i ||| 1 <<< (ch &&& 7).toUInt8)

def bloomSet (ctx : List UInt8) (bloom : Nat → UInt8) : Nat → UInt8 :=
  let ch := fnv ctx
  bloomSetBit (ch * 2654435761) (bloomSetBit ch bloom)

def bloomBit (bloom : Nat → UInt8) (ch : UInt32) : Bool :=
  (bloom ((ch.toNat &&& bloomMask) / 8)).toNat.testBit (ch.toNat % 8)

def bloomChk (bloom : Nat → UInt8) (ctx : List UInt8) : Bool :=
  let ch := fnv ctx
  if !bloomBit bloom ch then false
  else bloomBit bloom (ch * 2654435761)

/-- The first half of `bt_update`: whether the pair is new, or `none` where it has no room. -/
def btCount (ctx : List UInt8) (ch : UInt32) (next : UInt8) (t : Pool BtEntry) :
    Outcome (Option Bool × Pool BtEntry) := do
  let nh := btBucket ch next
  match ← t.find BtEntry.chain (btSame ctx next) nh with
  | some i => return (some false, t.modify i fun e => { e with freq := e.freq + 1 })
  | none =>
    if btPool ≤ t.used then return (none, t)
    return (some true, t.push nh (newBtEntry ctx next (t.buckets nh) (t.pool t.used)))

def btUpdate (ctx : List UInt8) (next : UInt8) (g : Globals) : Outcome Globals := do
  if ctx.length = 0 ∨ btMaxDepth < ctx.length then return g
  let ch := fnv ctx
  let bloom := bloomSet ctx g.bloom
  match ← btCount ctx ch next g.table with
  | (none, table) => return { g with table := table, bloom := bloom }
  | (some isNew, table) =>
    match ← ctxGetH ctx ch g.ctx with
    | (none, cs) => return { g with table := table, ctx := cs, bloom := bloom }
    | (some cc, cs) =>
      let cs := cs.modify cc fun e => { e with
        totalFreq := e.totalFreq + 1
        uniqueNext := if isNew then e.uniqueNext + 1 else e.uniqueNext }
      return { g with table := table, ctx := cs, bloom := bloom }

/-- The table is cleared, the contexts beyond `g_ctx_used` are left as they are found. -/
def btV4Init (ctxs : Nat → CtxEntry) : Globals where
  table := ⟨fun _ => ⟨fun _ => 0, 0, 0, 0, 0⟩, 0, btPool, fun _ => -1, btBuckets⟩
  ctx := ⟨ctxs, 0, ctxPool, fun _ => -1, ctxBuckets⟩
  bloom _ := 0
  window := .empty

def btV4Train (b : UInt8) (g : Globals) : Outcome Globals := do
  let g ← (List.range' 1 g.window.bytes.length).foldlM
    (fun g n => btUpdate (g.window.last n) b g) g
  return { g with window := g.window.push b }

/-- A training sequence, one byte after another. -/
def btV4TrainAll (s : List UInt8) (g : Globals) : Outcome Globals :=
  s.foldlM (fun g b => btV4Train b g) g

/-- The lookups `predict_byte` makes for the last `n` bytes: `total_freq`, and the `freq` of the
byte or 0, or `none` where it goes on to the next `n`. -/
def predictCounts (g : Globals) (n : Nat) (byte : UInt8) : Outcome (Option (UInt32 × UInt32)) := do
  let ctx := g.window.last n
  if !bloomChk g.bloom ctx then return none
  let ch := fnv ctx
  match ← ctxFindH ctx ch g.ctx with
  | none => return none
  | some i =>
    let cc ← g.ctx.read i
    if cc.totalFreq = 0 then return none
    match ← g.table.find BtEntry.chain (btSame ctx byte) (btBucket ch byte) with
    | none => return some (cc.totalFreq, 0)
    | some j =>
      let e ← g.table.read j
      return some (cc.totalFreq, e.freq)

end Bcb.V0
