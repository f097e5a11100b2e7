import Bcb.Bt.Validate
import Bcb.Prior.Image
import Bcb.Prior.Sha256

/-! `prior_parse`: a prior image becomes a `BcbPrior`, or is refused. -/

namespace Bcb.Prior

open Lib Bt

structure BcbpHeader where
  magic : List UInt8
  version : Nat
  btEntrySz : Nat
  ctxEntrySz : Nat
  btMaxDepth : Nat
  pres : Nat
  bloomBits : Nat
  poolUsed : Nat
  ctxUsed : Nat
  ctxNslots : Nat
  bloomBytes : Nat
  winLen : Int
  lmN : Nat
  lmK : Nat
  schemaRec : Nat
  schemaPos : Nat
  offWindow : Nat
  offPool : Nat
  offCtxPool : Nat
  offCtxSlot : Nat
  offBloom : Nat
  offLmCtx : Nat
  offLmCum : Nat
  offSchemaModes : Nat
  offSchemaCum : Nat
  fileSize : Nat

/-- `sizeof(BcbpHeader)`. -/
def headerSize : Nat := 168

def header (im : Image) : BcbpHeader where
  magic := im.bytesAt 0 4
  version := im.le 4 4
  btEntrySz := im.le 8 4
  ctxEntrySz := im.le 12 4
  btMaxDepth := im.le 16 4
  pres := im.le 20 4
  bloomBits := im.le 24 8
  poolUsed := im.le 32 8
  ctxUsed := im.le 40 8
  ctxNslots := im.le 48 8
  bloomBytes := im.le 56 8
  winLen := im.i32 64
  lmN := im.le 68 4
  lmK := im.le 72 8
  schemaRec := im.le 80 4
  schemaPos := im.le 84 4
  offWindow := im.le 88 8
  offPool := im.le 96 8
  offCtxPool := im.le 104 8
  offCtxSlot := im.le 112 8
  offBloom := im.le 120 8
  offLmCtx := im.le 128 8
  offLmCum := im.le 136 8
  offSchemaModes := im.le 144 8
  offSchemaCum := im.le 152 8
  fileSize := im.le 160 8

/-- `"BCBP"`. -/
def bcbpMagic : List UInt8 := [0x42, 0x43, 0x42, 0x50]

def bcbpVersion : Nat := 3

def regionInBounds (off nbytes len : Nat) : Bool := off ≤ len && nbytes ≤ len - off

def mulNoOverflow (a b : Nat) : Option Nat :=
  if a ≠ 0 ∧ (2 ^ 64 - 1) / a < b then none else some (a * b)

/-- `mul_no_overflow(a, b, &sz) && region_in_bounds(off, sz, L)`. -/
def arrayInBounds (off a b len : Nat) : Bool :=
  match mulNoOverflow a b with
  | none => false
  | some sz => regionInBounds off sz len

/-- The checks on the header alone. -/
def headerOk (h : BcbpHeader) (len : Nat) : Bool :=
  h.magic = bcbpMagic && h.version = bcbpVersion && h.fileSize ≤ len &&
    regionInBounds h.offWindow h.btMaxDepth len &&
    arrayInBounds h.offPool h.poolUsed h.btEntrySz len &&
    arrayInBounds h.offCtxPool h.ctxUsed h.ctxEntrySz len &&
    arrayInBounds h.offCtxSlot h.ctxNslots 4 len &&
    regionInBounds h.offBloom h.bloomBytes len &&
    (0 ≤ h.winLen && h.winLen ≤ h.btMaxDepth) &&
    (h.lmK = 0 || (1 ≤ h.lmN && h.lmN ≤ Bcb.btMaxDepth &&
      arrayInBounds h.offLmCtx h.lmK h.lmN len && arrayInBounds h.offLmCum h.lmK 512 len)) &&
    (h.schemaRec = 0 || (h.schemaPos = h.schemaRec && h.schemaRec ≤ schemaMax &&
      regionInBounds h.offSchemaModes h.schemaPos len &&
      arrayInBounds h.offSchemaCum h.schemaPos 512 len))

/-- The `BtEntry` at an address. -/
def btEntryAt (im : Image) (off : Nat) : BtEntry where
  ctx i := im.byteAt (off + i)
  ctxLen := im.byteAt (off + 24)
  nextByte := im.byteAt (off + 25)
  freq := im.u32 (off + 28)
  ctxNext := im.i32 (off + 32)

/-- The `CtxEntry` at an address. -/
def ctxEntryAt (im : Image) (off : Nat) : CtxEntry where
  ctx i := im.byteAt (off + i)
  ctxLen := im.byteAt (off + 24)
  totalFreq := im.u32 (off + 28)
  uniqueNext := im.u32 (off + 32)
  firstEntry := im.i32 (off + 36)

@[simp] theorem btEntryAt_ctxNext (im : Image) (off : Nat) :
    (btEntryAt im off).ctxNext = im.i32 (off + 32) := rfl

@[simp] theorem ctxEntryAt_firstEntry (im : Image) (off : Nat) :
    (ctxEntryAt im off).firstEntry = im.i32 (off + 36) := rfl

def readBtEntry (im : Image) (off : Nat) : Outcome BtEntry := do
  im.region off btEntrySize
  return btEntryAt im off

def readCtxEntry (im : Image) (off : Nat) : Outcome CtxEntry := do
  im.region off ctxEntrySize
  return ctxEntryAt im off

def readByte (im : Image) (off : Nat) : Outcome UInt8 := do
  im.region off 1
  return im.byteAt off

def readInt (im : Image) (off : Nat) : Outcome Int := do
  im.region off 4
  return im.i32 off

def readBytes (im : Image) (off n : Nat) : Outcome (List UInt8) := do
  im.region off n
  return im.bytesAt off n

def readRow (im : Image) (off : Nat) : Outcome (UInt8 → Nat) := do
  im.region off 512
  return im.row16 off

def snapshot (im : Image) (h : BcbpHeader) : BtV3Snapshot where
  pool i := readBtEntry im (h.offPool + btEntrySize * i)
  poolUsed := h.poolUsed
  ctxPool i := readCtxEntry im (h.offCtxPool + ctxEntrySize * i)
  ctxUsed := h.ctxUsed
  ctxSlot i := readInt im (h.offCtxSlot + 4 * i)
  ctxNslots := h.ctxNslots
  bloom i := readByte im (h.offBloom + i)
  bloomBytes := h.bloomBytes
  window i := readByte im (h.offWindow + i)
  winLen := h.winLen
  btEntrySz := h.btEntrySz
  ctxEntrySz := h.ctxEntrySz
  maxDepth := h.btMaxDepth
  bloomBits := h.bloomBits % 2 ^ 32
  pres := h.pres

def hashN (c : List UInt8) : UInt32 := fnv c

/-- The landmarks of a prior: `lm_slot` is the RAM index over `lm_ctx`. -/
structure Landmarks where
  lmN : Nat
  lmK : Nat
  lmCtx : Nat → Outcome (List UInt8)
  lmCum : Nat → Outcome (UInt8 → Nat)
  lmSlot : Nat → Int
  lmMask : Nat

/-- `ns = 1; while (ns < lm_k*2) ns <<= 1`, for a 32-bit `lm_k`. -/
def lmNslots (k : Nat) : Nat := Loop.run (fun ns => if ns < k * 2 then some (2 * ns) else none) 33 1

/-- `h = (h + 1) & lm_mask` on `unsigned long`. -/
def lmNext (mask h : Nat) : Nat := (h + 1) &&& mask

/-- `while (lm_slot[h] >= 0) h = (h + 1) & lm_mask`. -/
def lmFreeSlot (slot : Nat → Int) (mask h : Nat) : Outcome Nat :=
  Probe.run .diverge (lmNext mask) (fun h => pure (if 0 ≤ slot h then none else some h))
    (mask + 1) h

def lmInsert (lmCtx : Nat → Outcome (List UInt8)) (mask : Nat) (slot : Nat → Int) (k : Nat) :
    Outcome (Nat → Int) := do
  let c ← lmCtx k
  let h ← lmFreeSlot slot mask ((hashN c).toNat &&& mask)
  return Function.update slot h (toInt32 k)

def lmBuildIndex (lmCtx : Nat → Outcome (List UInt8)) (k : Nat) : Outcome ((Nat → Int) × Nat) := do
  if k = 0 then return (fun _ => -1, 0)
  let mask := lmNslots k - 1
  let slot ← (List.range k).foldlM (lmInsert lmCtx mask) fun _ => -1
  return (slot, mask)

/-- One turn of the loop of `lm_lookup`. -/
def lmTest (p : Landmarks) (ctx : List UInt8) (h : Nat) : Outcome (Option (Option Nat)) := do
  match link (p.lmSlot h) with
  | none => return some none
  | some s =>
    let c ← p.lmCtx s
    return if c = ctx then some (some s) else none

/-- `none` for -1. -/
def lmLookup (p : Landmarks) (ctx : List UInt8) : Outcome (Option Nat) :=
  if p.lmK = 0 then pure none
  else Probe.run .diverge (lmNext p.lmMask) (lmTest p ctx) (p.lmMask + 1)
    ((hashN ctx).toNat &&& p.lmMask)

/-- What an accepted image is read through; the image itself lives as long. -/
structure BcbPrior extends Landmarks where
  snap : BtV3Snapshot
  schemaRec : Nat
  schemaPos : Nat
  schemaModes : Nat → Outcome UInt8
  schemaCum : Nat → Outcome (UInt8 → Nat)
  id : List UInt8

def lmCtxAt (im : Image) (h : BcbpHeader) (k : Nat) : Outcome (List UInt8) :=
  readBytes im (h.offLmCtx + k * h.lmN) h.lmN

/-- The fields of the prior over an accepted image. -/
def priorOf (im : Image) (h : BcbpHeader) (lmSlot : Nat → Int) (lmMask : Nat) : BcbPrior where
  lmN := h.lmN
  lmK := h.lmK % 2 ^ 32
  lmCtx := lmCtxAt im h
  lmCum k := readRow im (h.offLmCum + 512 * k)
  lmSlot := lmSlot
  lmMask := lmMask
  snap := snapshot im h
  schemaRec := h.schemaRec
  schemaPos := h.schemaPos
  schemaModes pos := readByte im (h.offSchemaModes + pos)
  schemaCum pos := readRow im (h.offSchemaCum + 512 * pos)
  id := (Sha256.sha256 (im.bytesAt 0 h.fileSize)).take 16

/-- `none` for the return value -1.  The LUTs it ensures are not part of the prior. -/
def priorParse (B : Build) (im : Image) : Outcome (Option BcbPrior) := do
  if im.len < headerSize then return none
  let h := header im
  if !headerOk h im.len then return none
  if !(← btV3Validate B (snapshot im h)) then return none
  let (lmSlot, lmMask) ← lmBuildIndex (lmCtxAt im h) (h.lmK % 2 ^ 32)
  return some (priorOf im h lmSlot lmMask)

end Bcb.Prior
