import Bcb.Bt.Table

namespace Bcb

namespace Build

/-- `BTV3_DYNAMIC`. -/
def dynamic (B : Build) : Bool := B.sizing = .dynamic

/-- `POOL_CAP0`. -/
def poolCap0 (B : Build) : Nat :=
  match B.sizing with
  | .mcu => 64 * 1024
  | .fixed n => 2 ^ n
  | .dynamic => 2 ^ 16

/-- `BT_NSLOTS0`. -/
def btNslots0 (B : Build) : Nat :=
  match B.sizing with
  | .mcu => 2 ^ 17
  | .fixed n => 2 ^ (n + 1)
  | .dynamic => 2 ^ 17

/-- `CTX_CAP0`. -/
def ctxCap0 (B : Build) : Nat :=
  match B.sizing with
  | .mcu => 16 * 1024
  | .fixed n => 2 ^ (n - 1)
  | .dynamic => 2 ^ 15

/-- `CTX_NSLOTS0`. -/
def ctxNslots0 (B : Build) : Nat :=
  match B.sizing with
  | .mcu => 2 ^ 15
  | .fixed n => 2 ^ n
  | .dynamic => 2 ^ 16

theorem poolCap0_pos (B : Build) : 0 < B.poolCap0 := by
  unfold poolCap0
  split <;> positivity

theorem ctxCap0_pos (B : Build) : 0 < B.ctxCap0 := by
  unfold ctxCap0
  split <;> positivity

theorem btNslots0_eq (B : Build) : ∃ k, B.btNslots0 = 2 ^ k := by
  unfold btNslots0
  split <;> exact ⟨_, rfl⟩

theorem ctxNslots0_eq (B : Build) : ∃ k, B.ctxNslots0 = 2 ^ k := by
  unfold ctxNslots0
  split <;> exact ⟨_, rfl⟩

theorem btNslots0_pos (B : Build) : 0 < B.btNslots0 := by
  obtain ⟨k, hk⟩ := B.btNslots0_eq
  exact hk ▸ Nat.two_pow_pos k

end Build

namespace Bt

open Lib

/-- The tables of the process, its window, and whether training is off. -/
structure Globals where
  bt : Table BtEntry
  ctx : Table CtxEntry
  bloom : Nat → UInt8
  window : Window
  frozen : Bool

/-- `memcpy(e->ctx,ctx,cl)`. -/
def copyCtx (old : Fin btMaxDepth → UInt8) (ctx : List UInt8) : Fin btMaxDepth → UInt8 :=
  fun i => ctx.getD i (old i)

/-- `fnv(e->ctx,e->ctx_len)`. -/
def fnvEntry (ectx : Fin btMaxDepth → UInt8) (ectxLen : UInt8) : UInt32 :=
  fnv ((List.ofFn ectx).take ectxLen.toNat)

def btKey (ch : UInt32) (next : UInt8) : UInt32 := (ch ^^^ next.toUInt32) * 16777619

def btHash (e : BtEntry) : UInt32 := btKey (fnvEntry e.ctx e.ctxLen) e.nextByte

def ctxHash (e : CtxEntry) : UInt32 := fnvEntry e.ctx e.ctxLen

/-- `e->ctx_len==cl && e->next_byte==next && memcmp(e->ctx,ctx,cl)==0`. -/
def btSame (ctx : List UInt8) (next : UInt8) (e : BtEntry) : Bool :=
  e.nextByte = next && sameCtx e.ctx e.ctxLen ctx

def ctxSame (ctx : List UInt8) (e : CtxEntry) : Bool := sameCtx e.ctx e.ctxLen ctx

/-- `bloom[(ch&BLOOM_MASK)>>3] |= (1<<(ch&7))`. -/
def bloomSetBit (B : Build) (ch : UInt32) (bloom : Nat → UInt8) : Nat → UInt8 :=
  let i := (ch.toNat &&& B.bloomMask) / 8
  Function.update bloom i (bloom i ||| 1 <<< (ch &&& 7).toUInt8)

def bloomSet (B : Build) (ctx : List UInt8) (bloom : Nat → UInt8) : Nat → UInt8 :=
  let ch := fnv ctx
  bloomSetBit B (ch * 2654435761) (bloomSetBit B ch bloom)

def newBtEntry (ctx : List UInt8) (next : UInt8) (old : BtEntry) : BtEntry where
  ctx := copyCtx old.ctx ctx
  ctxLen := UInt8.ofNat ctx.length
  nextByte := next
  freq := 1
  ctxNext := -1

def newCtxEntry (ctx : List UInt8) (old : CtxEntry) : CtxEntry where
  ctx := copyCtx old.ctx ctx
  ctxLen := UInt8.ofNat ctx.length
  totalFreq := 0
  uniqueNext := 0
  firstEntry := -1

/-- `ctx_get_h`: the place of the context, `none` for NULL. -/
def ctxGetH (B : Build) (al : Growth) (ctx : List UInt8) (ch : UInt32) (t : Table CtxEntry) :
    Outcome (Option Nat × Table CtxEntry) := do
  match ← t.place B.dynamic al ctxHash (ctxSame ctx) ch 2 with
  | (none, t) => return (none, t)
  | (some (.found i), t) => return (some i, t)
  | (some (.free h), t) =>
    -- `int idx = (int)g_ctx_used`, negative from `2^31` on
    let idx := t.used % 2 ^ 32
    if idx < 2 ^ 31 then return (some idx, t.put h idx (newCtxEntry ctx (t.pool idx)))
    else throw .oob

/-- The first half of `bt_update`: the entry counts once more, or is new; `none` where the pool
is full. -/
def btCount (B : Build) (al : Growth) (ctx : List UInt8) (ch : UInt32) (next : UInt8)
    (t : Table BtEntry) : Outcome (Option (Option Nat) × Table BtEntry) := do
  match ← t.place B.dynamic al btHash (btSame ctx next) (btKey ch next) 2 with
  | (none, t) => return (none, t)
  | (some (.found i), t) => return (some none, t.modify i fun e => { e with freq := e.freq + 1 })
  | (some (.free h), t) =>
    return (some (some t.used), t.put h t.used (newBtEntry ctx next (t.pool t.used)))

/-- A new entry becomes the first of its context. -/
def chainNew (newIdx : Option Nat) (cc : Nat) (bt : Table BtEntry) (ctx : Table CtxEntry) :
    Table BtEntry × Table CtxEntry :=
  match newIdx with
  | none => (bt, ctx)
  | some j =>
    (bt.modify j fun e => { e with ctxNext := (ctx.pool cc).firstEntry },
      ctx.modify cc fun e => { e with
        uniqueNext := e.uniqueNext + 1
        firstEntry := toInt32 j })

/-- The growths of one `bt_update`: of the pool, and of the context pool. -/
structure UpdateAlloc where
  bt : Growth
  ctx : Growth

def btUpdate (B : Build) (al : UpdateAlloc) (ctx : List UInt8) (next : UInt8) (g : Globals) :
    Outcome Globals := do
  if ctx.length = 0 ∨ btMaxDepth < ctx.length then return g
  let ch := fnv ctx
  let bloom := bloomSet B ctx g.bloom
  match ← btCount B al.bt ctx ch next g.bt with
  | (none, bt) => return { g with bt := bt, bloom := bloom }
  | (some newIdx, bt) =>
    match ← ctxGetH B al.ctx ctx ch g.ctx with
    | (none, cs) => return { g with bt := bt, ctx := cs, bloom := bloom }
    | (some cc, cs) =>
      let (bt, cs) := chainNew newIdx cc bt
        (cs.modify cc fun e => { e with totalFreq := e.totalFreq + 1 })
      return { g with bt := bt, ctx := cs, bloom := bloom }

/-- The updates of a byte, for the contexts of every length in the window. -/
def btUpdates (B : Build) (al : Nat → UpdateAlloc) (b : UInt8) (g : Globals) : Outcome Globals :=
  (List.range' 1 g.window.bytes.length).foldlM
    (fun g n => btUpdate B (al n) (g.window.last n) b g) g

def btV3Train (B : Build) (al : Nat → UpdateAlloc) (b : UInt8) (g : Globals) :
    Outcome Globals := do
  let g ← if g.frozen then pure g else btUpdates B al b g
  return { g with window := g.window.push b }

/-- What the memory of the pools holds is left as it is found. -/
def btV3Init (B : Build) (pool : Nat → BtEntry) (ctxPool : Nat → CtxEntry) : Globals where
  bt := ⟨pool, 0, B.poolCap0, fun _ => -1, B.btNslots0, B.btNslots0 - 1⟩
  ctx := ⟨ctxPool, 0, B.ctxCap0, fun _ => -1, B.ctxNslots0, B.ctxNslots0 - 1⟩
  bloom _ := 0
  window := .empty
  frozen := false

/-- `bt_v3_init` at other capacities, with twice as many slots. -/
def btV3InitAt (poolCap ctxCap : Nat) (pool : Nat → BtEntry) (ctxPool : Nat → CtxEntry) :
    Globals where
  bt := ⟨pool, 0, poolCap, fun _ => -1, poolCap * 2, poolCap * 2 - 1⟩
  ctx := ⟨ctxPool, 0, ctxCap, fun _ => -1, ctxCap * 2, ctxCap * 2 - 1⟩
  bloom _ := 0
  window := .empty
  frozen := false

theorem btV3Init_eq (B : Build) (hB : B.sizing ≠ .fixed 0) (pool : Nat → BtEntry)
    (ctxPool : Nat → CtxEntry) :
    btV3Init B pool ctxPool = btV3InitAt B.poolCap0 B.ctxCap0 pool ctxPool := by
  have hbt : B.btNslots0 = B.poolCap0 * 2 := by
    unfold Build.btNslots0 Build.poolCap0
    split
    · rfl
    · exact pow_succ 2 _
    · rfl
  have hctx : B.ctxNslots0 = B.ctxCap0 * 2 := by
    unfold Build.ctxNslots0 Build.ctxCap0
    split
    · rfl
    · next n hn =>
      obtain ⟨n, rfl⟩ := Nat.exists_eq_succ_of_ne_zero fun h0 => hB (h0 ▸ hn)
      exact pow_succ 2 n
    · rfl
  rw [btV3Init, btV3InitAt, hbt, hctx]

/-- The reader that `bt_v3_distribution` makes of the globals, at some window. -/
def Globals.reader (B : Build) (g : Globals) (w : Window) : BtV3Reader where
  pool := g.bt.read
  ctxPool := g.ctx.read
  ctxSlot := g.ctx.readSlot
  bloom i := if i < B.bloomBits / 8 then pure (g.bloom i) else throw .oob
  ctxMask := g.ctx.mask
  window := w

/-- A training sequence, one byte after another. -/
def btV3TrainAll (B : Build) (al : Nat → Nat → UpdateAlloc) (s : List UInt8) (g : Globals) :
    Outcome Globals :=
  s.zipIdx.foldlM (fun g x => btV3Train B (al x.2) x.1 g) g

end Bt

end Bcb
