import Bcb.Bt.Reader

namespace Bcb.Bt

open Lib

/-- Which of the two reallocs of a growth succeed. -/
structure Growth where
  pool : Bool
  slot : Bool

/-- `g_pool`, `g_pool_used`, `g_pool_cap`, `g_bt_slot`, `g_bt_nslots` and `g_bt_mask`, or their
counterparts for contexts.  From `used` on, `pool` is what the memory holds or will hold. -/
structure Table (α : Type) where
  pool : Nat → α
  used : Nat
  cap : Nat
  slot : Nat → Int
  nslots : Nat
  mask : Nat

/-- Where a search ends: at a free slot, or at an entry of the pool. -/
inductive Hit
  | free (h : Nat)
  | found (i : Nat)

namespace Table

variable {α : Type}

def read (t : Table α) (i : Nat) : Outcome α := if i < t.cap then pure (t.pool i) else throw .oob

def readSlot (t : Table α) (h : Nat) : Outcome Int :=
  if h < t.nslots then pure (t.slot h) else throw .oob

/-- `while(slot[h]>=0) h=(h+1)&mask`. -/
def freeSlot (t : Table α) (h : Nat) : Outcome Nat :=
  Probe.run .diverge (nextSlot t.mask) (fun h => do
    let s ← t.readSlot h
    return if 0 ≤ s then none else some h) t.nslots h

/-- One turn of the loop over the pool in `bt_grow` and `ctx_grow`. -/
def rehash (hash : α → UInt32) (t : Table α) (i : Nat) : Outcome (Table α) := do
  let e ← t.read i
  let h ← t.freeSlot ((hash e).toNat &&& t.mask)
  return { t with slot := Function.update t.slot h (toInt32 i) }

/-- Both reallocs done, and the slots cleared. -/
def doubled (t : Table α) : Table α :=
  { t with
    cap := t.cap * 2
    nslots := t.nslots * 2
    mask := t.nslots * 2 - 1
    slot := fun _ => -1 }

/-- `bt_grow` and `ctx_grow`; `false` for -1. -/
def grow (dynamic : Bool) (al : Growth) (hash : α → UInt32) (t : Table α) :
    Outcome (Bool × Table α) := do
  if !dynamic then return (false, t)
  if !al.pool then return (false, t)
  if !al.slot then return (false, { t with cap := t.cap * 2 })
  let t ← (List.range t.used).foldlM (rehash hash) t.doubled
  return (true, t)

/-- One turn of the inner loop of a search. -/
def searchTest (same : α → Bool) (t : Table α) (h : Nat) : Outcome (Option Hit) := do
  let s ← t.readSlot h
  match link s with
  | none => return some (.free h)
  | some i =>
    let e ← t.read i
    return if same e then some (.found i) else none

def search (same : α → Bool) (key : UInt32) (t : Table α) : Outcome Hit :=
  Probe.run .diverge (nextSlot t.mask) (searchTest same t) t.nslots (key.toNat &&& t.mask)

/-- The outer loop of a search: a full table grows and is searched again, `none` where it
cannot.  After a growth there is room, so that the second turn is the last. -/
def place (dynamic : Bool) (al : Growth) (hash : α → UInt32) (same : α → Bool) (key : UInt32) :
    Nat → Table α → Outcome (Option Hit × Table α)
  | 0, _ => throw .diverge
  | n + 1, t => do
    match ← t.search same key with
    | .found i => return (some (.found i), t)
    | .free h =>
      if t.used < t.cap then return (some (.free h), t)
      let (grown, t) ← t.grow dynamic al hash
      if grown then place dynamic al hash same key n t else return (none, t)

/-- The next entry, written at `idx`, in a free slot. -/
def put (t : Table α) (h idx : Nat) (e : α) : Table α :=
  { t with
    pool := Function.update t.pool idx e
    slot := Function.update t.slot h (toInt32 t.used)
    used := t.used + 1 }

def modify (t : Table α) (i : Nat) (f : α → α) : Table α :=
  { t with pool := Function.update t.pool i (f (t.pool i)) }

@[simp] theorem put_pool (t : Table α) (h idx : Nat) (e : α) (i : Nat) :
    (t.put h idx e).pool i = if i = idx then e else t.pool i := Function.update_apply _ _ _ _

@[simp] theorem modify_pool (t : Table α) (i : Nat) (f : α → α) (j : Nat) :
    (t.modify i f).pool j = if j = i then f (t.pool i) else t.pool j := Function.update_apply _ _ _ _

theorem modify_modify (t : Table α) (i : Nat) (f f' : α → α) :
    (t.modify i f).modify i f' = t.modify i (f' ∘ f) := by
  simp [modify]

end Table

end Bcb.Bt
