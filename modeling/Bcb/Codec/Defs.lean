import Bcb.Bt.Distribution
import Bcb.Prior.Parse

/-! `BcbCodec`: the per-instance model a coder drives over a loaded prior. -/

namespace Bcb.Codec

open RangeCoder Bt Prior

/-- A slot of the cache; `win` is the part of the key that a compare reads. -/
structure BcbDistEntry where
  cum : Cum
  gen : Nat
  scale : Nat
  win : List UInt8

structure BcbCodec where
  window : Window
  scPos : Nat
  scPrev : Nat → UInt8
  scCur : Nat → UInt8
  sdelta : Bool
  scLast : UInt8
  /-- `NULL` until `bcb_codec_set_sdelta` has built it -/
  scCumPre : Option (List Cum)
  /-- `NULL` in a structural codec, without memory, or in a build without the cache -/
  distcache : Option (Nat → BcbDistEntry)
  dcGen : Nat

/-- `BCB_DISTCACHE_SLOTS`. -/
def distcacheSlots : Nat := 512

def distcacheHash (win : List UInt8) (scale : Nat) : UInt32 :=
  (fnv win ^^^ UInt32.ofNat scale) * 16777619

/-- `mode == 1`. -/
def structural (p : BcbPrior) : Bool :=
  0 < p.schemaRec && 0 < p.schemaPos && p.schemaRec ≤ schemaMax

/-- `sc_rec_mask`. -/
def scRecMask (p : BcbPrior) : Nat :=
  if p.schemaRec &&& (p.schemaRec - 1) = 0 then p.schemaRec - 1 else 0

def reader (p : BcbPrior) (w : Window) : BtV3Reader where
  pool := p.snap.pool
  ctxPool := p.snap.ctxPool
  ctxSlot := p.snap.ctxSlot
  bloom := p.snap.bloom
  ctxMask := if p.snap.ctxNslots = 0 then 0 else p.snap.ctxNslots - 1
  window := w

/-- `a2 += (u?u:1)` with `u = scale/256`. -/
def uniformCum (scale : Nat) : Cum :=
  cumOf fun _ => if scale / 256 = 0 then 1 else scale / 256

/-- A stored row is used where it sums to the scale. -/
def rowCum (scale : Nat) (w : UInt8 → Nat) : Cum :=
  if cumOf w 256 = scale then cumOf w else uniformCum scale

def sdeltaBuildPrecompute (p : BcbPrior) : Outcome (List Cum) :=
  (List.range p.schemaPos).mapM fun pos => do
    let w ← p.schemaCum pos
    return rowCum rcScale w

/-- `if (pos >= schema_pos) pos %= schema_pos`. -/
def wrapPos (p : BcbPrior) (pos : Nat) : Nat :=
  if p.schemaPos ≤ pos then pos % p.schemaPos else pos

def structuralDist (p : BcbPrior) (c : BcbCodec) (scale : Nat) : Outcome Cum := do
  let pos := wrapPos p c.scPos
  if c.sdelta then
    match c.scCumPre with
    | some t => match t[pos]? with
      | some cum => return cum
      | none => throw .oob
    | none =>
      let w ← p.schemaCum pos
      return rowCum scale w
  else
    let w ← p.schemaCum pos
    if (← p.schemaModes pos) ≠ 0 then
      let sh := c.scPrev pos
      return rowCum scale fun b => w (b - sh)
    else return rowCum scale w

/-- The row of a landmark, where the window ends with one and its row sums to the scale. -/
def landmarkDist (p : BcbPrior) (c : BcbCodec) (scale : Nat) : Outcome (Option Cum) := do
  if p.lmK ≠ 0 ∧ scale = rcScale ∧ p.lmN ≤ c.window.bytes.length then
    match ← lmLookup p.toLandmarks (c.window.last p.lmN) with
    | none => return none
    | some idx =>
      let w ← p.lmCum idx
      return if cumOf w 256 = scale then some (cumOf w) else none
  else return none

/-- The miss path, through the cache where there is one. -/
def btDist (B : Build) (luts : Bool) (p : BcbPrior) (c : BcbCodec) (scale : Nat) :
    Outcome (Cum × BcbCodec) := do
  match c.distcache with
  | none => return (← btV3DistributionR B luts (reader p c.window) scale, c)
  | some cache =>
    let win := c.window.bytes
    let slot := (distcacheHash win scale).toNat &&& (distcacheSlots - 1)
    let e := cache slot
    if e.gen = c.dcGen ∧ e.scale = scale ∧ e.win = win then return (e.cum, c)
    else
      let cum ← btV3DistributionR B luts (reader p c.window) scale
      return (cum, { c with
        distcache := some (Function.update cache slot ⟨cum, c.dcGen, scale, win⟩) })

def codecDist (B : Build) (luts : Bool) (p : BcbPrior) (scale : Nat) (c : BcbCodec) :
    Outcome (Cum × BcbCodec) := do
  if structural p then return (← structuralDist p c scale, c)
  else
    match ← landmarkDist p c scale with
    | some cum => return (cum, c)
    | none => btDist B luts p c scale

/-- `memcpy(sc_prev, sc_cur, schema_rec)`. -/
def copyRec (p : BcbPrior) (prev cur : Nat → UInt8) : Nat → UInt8 :=
  fun i => if i < p.schemaRec then cur i else prev i

/-- The real byte behind a coded symbol. -/
def actualByte (p : BcbPrior) (c : BcbCodec) (b : UInt8) : Outcome UInt8 := do
  if c.sdelta then
    if (← p.schemaModes c.scPos) ≠ 0 then return b + c.scPrev c.scPos
  return b

/-- The position after a byte: by mask where the record size is a power of two. -/
def advance (p : BcbPrior) (pos : Nat) : Nat :=
  if scRecMask p ≠ 0 then (pos + 1) &&& scRecMask p
  else if p.schemaRec ≤ pos + 1 then 0 else pos + 1

def codecTrain (p : BcbPrior) (b : UInt8) (c : BcbCodec) : Outcome BcbCodec := do
  if structural p then
    let actual ← actualByte p c b
    let cur := Function.update c.scCur c.scPos actual
    let pos := advance p c.scPos
    return { c with
      scLast := actual
      scCur := cur
      scPos := pos
      scPrev := if pos = 0 then copyRec p c.scPrev cur else c.scPrev }
  else return { c with window := c.window.push b }

/-- `calloc`ed slots. -/
def emptyCache : Nat → BcbDistEntry := fun _ => ⟨fun _ => 0, 0, 0, []⟩

def bcbCodecBegin (B : Build) (p : BcbPrior) (c : BcbCodec) : BcbCodec :=
  if structural p then { c with scPos := 0, scPrev := fun _ => 0, scCur := fun _ => 0 }
  else
    let c := { c with window := .empty }
    if B.distcache && B.perMsgClear then
      let gen := (c.dcGen + 1) % 2 ^ 32
      if gen = 0 then { c with distcache := c.distcache.map fun _ => emptyCache, dcGen := 1 }
      else { c with dcGen := gen }
    else c

/-- `alloc` tells whether the cache is allocated. -/
def bcbCodecNew (B : Build) (p : BcbPrior) (alloc : Bool) : BcbCodec :=
  bcbCodecBegin B p {
    window := .empty
    scPos := 0
    scPrev := fun _ => 0
    scCur := fun _ => 0
    sdelta := false
    scLast := 0
    scCumPre := none
    distcache := if !structural p && B.distcache && alloc then some emptyCache else none
    dcGen := if !structural p && B.distcache then 1 else 0 }

/-- `alloc` tells whether the table of `sdelta_build_precompute` is allocated. -/
def bcbCodecSetSdelta (B : Build) (p : BcbPrior) (alloc on : Bool) (c : BcbCodec) :
    Outcome BcbCodec := do
  let c := { c with sdelta := structural p && on }
  if B.precompute && c.sdelta && c.scCumPre.isNone && alloc then
    return { c with scCumPre := some (← sdeltaBuildPrecompute p) }
  else return c

/-- The coded symbol of a byte at the current position. -/
def bcbCodecEncXform (p : BcbPrior) (c : BcbCodec) (b : UInt8) : Outcome UInt8 := do
  if structural p && c.sdelta then
    let pos := wrapPos p c.scPos
    if (← p.schemaModes pos) ≠ 0 then return b - c.scPrev pos
  return b

def bcbCodecCecBt (B : Build) (luts : Bool) (p : BcbPrior) : CecBT BcbCodec where
  distribution := codecDist B luts p
  train := codecTrain p

end Bcb.Codec
