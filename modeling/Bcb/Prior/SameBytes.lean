import Bcb.Prior.HeaderBytes

namespace Bcb.Prior

open Bt

/-- Two images that agree on their first `n` bytes. -/
structure SameUpTo (n : Nat) (im im' : Image) : Prop where
  left : n ≤ im.len
  right : n ≤ im'.len
  byte : ∀ i < n, im.byteAt i = im'.byteAt i

section Reads

variable {n off : Nat} {im im' : Image}

theorem SameUpTo.le (h : SameUpTo n im im') {k : Nat} (hoff : off + k ≤ n) :
    im.le off k = im'.le off k := by
  induction k with
  | zero => rfl
  | succ k ih => rw [Image.le, Image.le, ih (by omega), h.byte (off + k) (by omega)]

theorem SameUpTo.i32 (h : SameUpTo n im im') (hoff : off + 4 ≤ n) : im.i32 off = im'.i32 off := by
  rw [Image.i32, Image.i32, h.le hoff]

theorem SameUpTo.u32 (h : SameUpTo n im im') (hoff : off + 4 ≤ n) : im.u32 off = im'.u32 off := by
  rw [Image.u32, Image.u32, h.le hoff]

theorem SameUpTo.bytesAt (h : SameUpTo n im im') {k : Nat} (hoff : off + k ≤ n) :
    im.bytesAt off k = im'.bytesAt off k := by
  apply List.map_congr_left
  intro i hi
  have hi := List.mem_range.1 hi
  exact h.byte (off + i) (by omega)

theorem SameUpTo.region (h : SameUpTo n im im') {k : Nat} (hoff : off + k ≤ n) :
    im.region off k = im'.region off k := by
  rw [im.region_ok (hoff.trans h.left), im'.region_ok (hoff.trans h.right)]

theorem SameUpTo.readByte (h : SameUpTo n im im') (hoff : off + 1 ≤ n) :
    readByte im off = readByte im' off := by
  rw [Prior.readByte, Prior.readByte, h.region hoff, h.byte off (by omega)]

theorem SameUpTo.readInt (h : SameUpTo n im im') (hoff : off + 4 ≤ n) :
    readInt im off = readInt im' off := by
  rw [Prior.readInt, Prior.readInt, h.region hoff, h.i32 hoff]

theorem SameUpTo.readRow (h : SameUpTo n im im') (hoff : off + 512 ≤ n) :
    readRow im off = readRow im' off := by
  have hrow : im.row16 off = im'.row16 off := by
    funext b
    have hb := b.toNat_lt
    exact h.le (by omega)
  rw [Prior.readRow, Prior.readRow, h.region hoff, hrow]

theorem SameUpTo.btEntry (h : SameUpTo n im im') (hoff : off + btEntrySize ≤ n) :
    btEntryAt im off = btEntryAt im' off := by
  rw [btEntrySize] at hoff
  have hctx : ∀ i : Fin Bcb.btMaxDepth, off + i < n := fun i => by
    have hi : i.val < 24 := i.isLt
    omega
  simp only [btEntryAt, BtEntry.mk.injEq]
  exact ⟨funext fun i => h.byte _ (hctx i), h.byte _ (by omega), h.byte _ (by omega),
    h.u32 (by omega), h.i32 (by omega)⟩

theorem SameUpTo.ctxEntry_ctx (h : SameUpTo n im im') (hoff : off + 32 ≤ n) :
    (ctxEntryAt im off).ctx = (ctxEntryAt im' off).ctx :=
  funext fun i => h.byte _ (by
    have hi : i.val < 24 := i.isLt
    omega)

theorem SameUpTo.ctxEntry (h : SameUpTo n im im') (hoff : off + ctxEntrySize ≤ n) :
    ctxEntryAt im off = ctxEntryAt im' off := by
  rw [ctxEntrySize] at hoff
  simp only [ctxEntryAt, CtxEntry.mk.injEq]
  exact ⟨h.ctxEntry_ctx (by omega), h.byte _ (by omega), h.u32 (by omega), h.u32 (by omega),
    h.i32 (by omega)⟩

theorem SameUpTo.header (h : SameUpTo headerSize im im') : header im = header im' := by
  rw [headerSize] at h
  simp only [Prior.header, h.bytesAt (Nat.le_of_ble_eq_true rfl : 0 + 4 ≤ 168),
    h.i32 (Nat.le_of_ble_eq_true rfl : 64 + 4 ≤ 168)]
  congr 1 <;> exact h.le (by decide)

end Reads

end Bcb.Prior
