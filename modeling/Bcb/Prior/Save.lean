import Bcb.Bt.Train
import Bcb.Lib.Layout
import Bcb.Prior.HeaderBytes

namespace Bcb.Prior

open Lib Layout Bt

/-- `bt_v3_export`.  The window is cleared by `bt_v3_init` and stays zero beyond its length. -/
def btV3Export (B : Build) (g : Globals) : BtV3Snapshot where
  pool := g.bt.read
  poolUsed := g.bt.used
  ctxPool := g.ctx.read
  ctxUsed := g.ctx.used
  ctxSlot := g.ctx.readSlot
  ctxNslots := g.ctx.nslots
  bloom i := if i < B.bloomBits / 8 then pure (g.bloom i) else throw .oob
  bloomBytes := B.bloomBits / 8
  window i := if i < btMaxDepth then pure (g.window.bytes.getD i 0) else throw .oob
  winLen := g.window.bytes.length
  btEntrySz := btEntrySize
  ctxEntrySz := ctxEntrySize
  maxDepth := btMaxDepth
  bloomBits := B.bloomBits
  pres := B.pres

/-- What `bcb_prior_set_landmarks` and `bcb_prior_set_schema_` have left for the next save: `k`
contexts of `n` bytes with a row each, and a mode and a row for each byte of a record. -/
structure Registered where
  lmN : Nat
  lmK : Nat
  lmCtx : Nat → Nat → UInt8
  lmCum : Nat → UInt8 → UInt16
  scRec : Nat
  scPos : Nat
  scModes : Nat → UInt8
  scCum : Nat → UInt8 → UInt16
  lmN_mem : lmK ≠ 0 → 1 ≤ lmN ∧ lmN ≤ btMaxDepth
  lmK_lt : lmK < 2 ^ 32
  scPos_eq : scPos = scRec
  scRec_le : scRec ≤ schemaMax

/-- Nothing registered. -/
def Registered.none : Registered where
  lmN := 0
  lmK := 0
  lmCtx _ _ := 0
  lmCum _ _ := 0
  scRec := 0
  scPos := 0
  scModes _ := 0
  scCum _ _ := 0
  lmN_mem h := absurd rfl h
  lmK_lt := by decide
  scPos_eq := rfl
  scRec_le := Nat.zero_le _

/-- What the memory holds between the fields of the entries. -/
structure Padding where
  bt : Nat → Fin 2 → UInt8
  ctx : Nat → Fin 3 → UInt8

/-- An `int` as it lies in memory. -/
def intBytes (x : Int) : List UInt8 := leBytes 4 (x % 2 ^ 32).toNat

/-- A `BtEntry` as it lies in memory. -/
def btEntryBytes (pad : Fin 2 → UInt8) (e : BtEntry) : List UInt8 :=
  List.ofFn e.ctx ++ ([e.ctxLen, e.nextByte] ++ (List.ofFn pad ++
    (leBytes 4 e.freq.toNat ++ intBytes e.ctxNext)))

/-- A `CtxEntry` as it lies in memory. -/
def ctxEntryBytes (pad : Fin 3 → UInt8) (e : CtxEntry) : List UInt8 :=
  List.ofFn e.ctx ++ ([e.ctxLen] ++ (List.ofFn pad ++
    (leBytes 4 e.totalFreq.toNat ++ (leBytes 4 e.uniqueNext.toNat ++ intBytes e.firstEntry))))

/-- 256 `uint16_t`. -/
def rowBytes (w : UInt8 → UInt16) : List UInt8 :=
  (List.range 256).flatMap fun b => leBytes 2 (w (UInt8.ofNat b)).toNat

def align8 (x : Nat) : Nat := (x + 7) / 8 * 8

/-- `h`, with `int lm_n = s_lm_k ? s_lm_n : 0`. -/
def saveHeader (r : Registered) (s : BtV3Snapshot) : BcbpHeader :=
  let lmN := if r.lmK = 0 then 0 else r.lmN
  let offWindow := align8 headerSize
  let offPool := align8 (offWindow + s.maxDepth)
  let offCtxPool := align8 (offPool + s.poolUsed * s.btEntrySz)
  let offCtxSlot := align8 (offCtxPool + s.ctxUsed * s.ctxEntrySz)
  let offBloom := align8 (offCtxSlot + s.ctxNslots * 4)
  let offLmCtx := align8 (offBloom + s.bloomBytes)
  let offLmCum := align8 (offLmCtx + r.lmK * lmN)
  let offSchemaModes := align8 (offLmCum + r.lmK * 512)
  let offSchemaCum := align8 (offSchemaModes + r.scPos)
  { magic := bcbpMagic
    version := bcbpVersion
    btEntrySz := s.btEntrySz
    ctxEntrySz := s.ctxEntrySz
    btMaxDepth := s.maxDepth
    pres := s.pres
    bloomBits := s.bloomBits
    poolUsed := s.poolUsed
    ctxUsed := s.ctxUsed
    ctxNslots := s.ctxNslots
    bloomBytes := s.bloomBytes
    winLen := s.winLen
    lmN := lmN
    lmK := r.lmK
    schemaRec := r.scRec
    schemaPos := r.scPos
    offWindow := offWindow
    offPool := offPool
    offCtxPool := offCtxPool
    offCtxSlot := offCtxSlot
    offBloom := offBloom
    offLmCtx := offLmCtx
    offLmCum := offLmCum
    offSchemaModes := offSchemaModes
    offSchemaCum := offSchemaCum
    fileSize := align8 (offSchemaCum + r.scPos * 512) }

/-- What is written after the header, and where. -/
def sections (B : Build) (m : Padding) (r : Registered) (g : Globals) (h : BcbpHeader) :
    List (Nat × List UInt8) :=
  [(h.offWindow, (List.range btMaxDepth).map fun i => g.window.bytes.getD i 0),
    (h.offPool, (List.range g.bt.used).flatMap fun i => btEntryBytes (m.bt i) (g.bt.pool i)),
    (h.offCtxPool, (List.range g.ctx.used).flatMap fun i => ctxEntryBytes (m.ctx i) (g.ctx.pool i)),
    (h.offCtxSlot, (List.range g.ctx.nslots).flatMap fun i => intBytes (g.ctx.slot i)),
    (h.offBloom, (List.range (B.bloomBits / 8)).map g.bloom),
    (h.offLmCtx, (List.range h.lmK).flatMap fun k => (List.range h.lmN).map (r.lmCtx k)),
    (h.offLmCum, (List.range h.lmK).flatMap fun k => rowBytes (r.lmCum k)),
    (h.offSchemaModes, (List.range h.schemaPos).map r.scModes),
    (h.offSchemaCum, (List.range h.schemaPos).flatMap fun pos => rowBytes (r.scCum pos))]

/-- What the memory holds between the fields of the entries, and in `g_window` beyond its
length. -/
structure Memory extends Padding where
  window : Nat → UInt8

def imageSections (B : Build) (m : Memory) (r : Registered) (g : Globals) (h : BcbpHeader) :
    List (Nat × List UInt8) :=
  (h.offWindow, (List.range btMaxDepth).map fun i => g.window.bytes.getD i (m.window i)) ::
    (sections B m.toPadding r g h).tail

/-- The bytes that the calls of `bcb_prior_save` are to leave. -/
def imageBytes (B : Build) (m : Memory) (r : Registered) (g : Globals) : List UInt8 :=
  putAll 0 (headerBytes (saveHeader r (btV3Export B g)))
    (imageSections B m r g (saveHeader r (btV3Export B g)))

/-- The file, `none` for -1.  File positions are `long`; a file that they reach is written
without failure. -/
def bcbPriorSave (B : Build) (m : Padding) (r : Registered) (g : Globals) : Option (List UInt8) :=
  let h := saveHeader r (btV3Export B g)
  if h.fileSize < 2 ^ 63 then some (putAll 0 (headerBytes h) (sections B m r g h)) else none

end Bcb.Prior
