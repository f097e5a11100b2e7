import Bcb.Bt.Reader

namespace Bcb.Bt

open Lib

structure BtV3Snapshot where
  pool : Nat → Outcome BtEntry
  poolUsed : Nat
  ctxPool : Nat → Outcome CtxEntry
  ctxUsed : Nat
  ctxSlot : Nat → Outcome Int
  ctxNslots : Nat
  bloom : Nat → Outcome UInt8
  bloomBytes : Nat
  window : Nat → Outcome UInt8
  winLen : Int
  btEntrySz : Nat
  ctxEntrySz : Nat
  maxDepth : Nat
  bloomBits : Nat
  pres : Nat

/-- `sizeof(BtEntry)`. -/
def btEntrySize : Nat := 36

/-- `sizeof(CtxEntry)`. -/
def ctxEntrySize : Nat := 40

/-- The build signature. -/
def BtV3Snapshot.sameBuild (B : Build) (s : BtV3Snapshot) : Bool :=
  s.btEntrySz = btEntrySize && s.ctxEntrySz = ctxEntrySize && s.maxDepth = btMaxDepth &&
    s.bloomBits = B.bloomBits && s.pres = B.pres && s.bloomBytes = B.bloomBits / 8

/-- `for (; i<i+n; i++) if (!p(i)) return -1;`. -/
def allFrom (p : Nat → Outcome Bool) : Nat → Nat → Outcome Bool
  | 0, _ => pure true
  | n + 1, i => do
    if ← p i then allFrom p n (i + 1) else return false

/-- The loop over the slots: `none` at its `return -1`, else `has_empty`. -/
def checkSlots (s : BtV3Snapshot) : Nat → Nat → Bool → Outcome (Option Bool)
  | 0, _, hasEmpty => pure (some hasEmpty)
  | n + 1, i, hasEmpty => do
    match link (← s.ctxSlot i) with
    | none => checkSlots s n (i + 1) true
    | some v => if s.ctxUsed ≤ v then return none else checkSlots s n (i + 1) hasEmpty

/-- `ctx_len` within the depth, and the link empty or below `used`. -/
def entryOk (ctxLen : UInt8) (idx : Int) (used : Nat) : Bool :=
  ctxLen.toNat ≤ btMaxDepth && (link idx).all (· < used)

def checkCtx (s : BtV3Snapshot) (i : Nat) : Outcome Bool := do
  let e ← s.ctxPool i
  return entryOk e.ctxLen e.firstEntry s.poolUsed

def checkEntry (s : BtV3Snapshot) (i : Nat) : Outcome Bool := do
  let e ← s.pool i
  return entryOk e.ctxLen e.ctxNext s.poolUsed

/-- `while(idx >= 0)` marking `seen`.  Every turn but the last marks a new entry, so that
`pool_used + 1` turns are enough. -/
def markChain (s : BtV3Snapshot) : Nat → Option Nat → (Nat → Bool) → Outcome (Option (Nat → Bool))
  | 0, _, _ => throw .diverge
  | _ + 1, none, seen => pure (some seen)
  | n + 1, some idx, seen =>
    if s.poolUsed ≤ idx ∨ seen idx then pure none
    else do
      let e ← s.pool idx
      markChain s n (link e.ctxNext) (Function.update seen idx true)

def markChains (s : BtV3Snapshot) : Nat → Nat → (Nat → Bool) → Outcome Bool
  | 0, _, _ => pure true
  | n + 1, i, seen => do
    let e ← s.ctxPool i
    match ← markChain s (s.poolUsed + 1) (link e.firstEntry) seen with
    | none => return false
    | some seen => markChains s n (i + 1) seen

/-- `true` for the return value 0.  The `calloc` of `seen` succeeds; where it fails the
snapshot is refused. -/
def btV3Validate (B : Build) (s : BtV3Snapshot) : Outcome Bool := do
  if !s.sameBuild B then return false
  if s.ctxNslots = 0 ∨ s.ctxNslots &&& (s.ctxNslots - 1) ≠ 0 then return false
  match ← checkSlots s s.ctxNslots 0 false with
  | none => return false
  | some false => return false
  | some true =>
    if !(← allFrom (checkCtx s) s.ctxUsed 0) then return false
    if !(← allFrom (checkEntry s) s.poolUsed 0) then return false
    if s.poolUsed = 0 then return true
    markChains s s.ctxUsed 0 fun _ => false

end Bcb.Bt
