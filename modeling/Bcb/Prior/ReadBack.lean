import Bcb.Bt.Linked
import Bcb.Prior.SavedImage

namespace Bcb.Prior

open Lib Layout Bt

variable {B : Build} {m : Memory} {r : Registered} {g : Globals} {im : Image} {off : Nat}

section Values

variable {l rest : List UInt8}

theorem Holds.record {k n : Nat} {rec : Nat → List UInt8} (hrec : ∀ i < n, (rec i).length = k)
    (h : Holds im off ((List.range n).flatMap rec)) {i : Nat} (hi : i < n) :
    Holds im (off + k * i) (rec i) := by
  have hself : At ((List.range n).flatMap rec) 0 ((List.range n).flatMap rec) := fun j _ => by
    rw [Nat.zero_add]
  intro j hj
  have hat := hself.record hrec hi j hj
  rw [Nat.zero_add, List.getElem?_eq_getElem hj] at hat
  obtain ⟨hlt, hval⟩ := List.getElem?_eq_some_iff.1 hat
  rw [Nat.add_assoc, h _ hlt, hval]

theorem Holds.bytes {n : Nat} {f : Nat → UInt8} (h : Holds im off ((List.range n).map f)) {i : Nat}
    (hi : i < n) : im.byteAt (off + i) = f i := by
  have hlt : i < ((List.range n).map f).length := by rwa [bytes_length]
  rw [h i hlt, List.getElem_map, List.getElem_range]

theorem Holds.bytesAt {n : Nat} {f : Nat → UInt8} (h : Holds im off ((List.range n).map f)) :
    im.bytesAt off n = (List.range n).map f :=
  List.map_congr_left fun _ hi => h.bytes (List.mem_range.1 hi)

theorem Holds.ofFn {n : Nat} {f : Fin n → UInt8} (h : Holds im off (List.ofFn f)) (i : Fin n) :
    im.byteAt (off + i) = f i := by
  have hlt : i.val < (List.ofFn f).length := by
    rw [List.length_ofFn]
    exact i.isLt
  rw [h i hlt, List.getElem_ofFn]

theorem Holds.u32 {x : UInt32} (h : Holds im off (leBytes 4 x.toNat ++ rest)) :
    im.u32 off = x ∧ Holds im (off + 4) rest := by
  obtain ⟨hval, hrest⟩ := h.field4 x.toNat_lt
  refine ⟨?_, hrest⟩
  rw [Image.u32, hval, UInt32.ofNat_toNat]

theorem Holds.i32 {n : Nat} {x : Int} (hx : Ref n x) (h : Holds im off (intBytes x)) :
    im.i32 off = x := by
  obtain ⟨hval, hlt⟩ := toInt32_emod hx.ge hx.lt
  have hle := (h : Holds im off (leBytes 4 (x % 2 ^ 32).toNat)).le.trans (Nat.mod_eq_of_lt hlt)
  exact (congrArg (fun n : Nat => toInt32 n) hle).trans hval

theorem btEntryAt_of_holds {n : Nat} {pad : Fin 2 → UInt8} {e : BtEntry} (he : Ref n e.ctxNext)
    (h : Holds im off (btEntryBytes pad e)) : btEntryAt im off = e := by
  obtain ⟨hctx, h⟩ := h.append
  rw [List.length_ofFn] at h
  obtain ⟨htwo, h⟩ := h.append
  obtain ⟨-, h⟩ := h.append
  rw [List.length_ofFn] at h
  obtain ⟨hfreq, h⟩ := h.u32
  have hnext := h.i32 he
  cases e
  simp only [btEntryAt, BtEntry.mk.injEq]
  exact ⟨funext hctx.ofFn, htwo 0 (by simp), htwo 1 (by simp), hfreq, hnext⟩

theorem ctxEntryAt_of_holds {n : Nat} {pad : Fin 3 → UInt8} {e : CtxEntry}
    (he : Ref n e.firstEntry) (h : Holds im off (ctxEntryBytes pad e)) : ctxEntryAt im off = e := by
  obtain ⟨hctx, h⟩ := h.append
  rw [List.length_ofFn] at h
  obtain ⟨hlen, h⟩ := h.append
  obtain ⟨-, h⟩ := h.append
  rw [List.length_ofFn] at h
  obtain ⟨htotal, h⟩ := h.u32
  obtain ⟨hunique, h⟩ := h.u32
  have hfirst := h.i32 he
  cases e
  simp only [ctxEntryAt, CtxEntry.mk.injEq]
  exact ⟨funext hctx.ofFn, hlen 0 (by simp), htotal, hunique, hfirst⟩

theorem row16_of_holds {w : UInt8 → UInt16} (h : Holds im off (rowBytes w)) :
    im.row16 off = fun b => (w b).toNat := by
  funext b
  have hb : Holds im (off + 2 * b.toNat) (leBytes 2 (w (UInt8.ofNat b.toNat)).toNat) :=
    h.record (fun i _ => leBytes_length 2 _) b.toNat_lt
  rw [Image.row16, hb.le, UInt8.ofNat_toNat]
  exact Nat.mod_eq_of_lt (w b).toNat_lt

end Values

/-! ## Sections -/

namespace Saved

variable (h : Saved B m r g im)

include h

theorem room : Room (saveHeader r (btV3Export B g)) im.len := h.len ▸ saveHeader_room

theorem section_holds {i : Nat} {x : Nat × List UInt8}
    (hx : (imageSections B m r g (saveHeader r (btV3Export B g)))[i]? = some x) : Holds im x.1 x.2 :=
  h.holds x (List.mem_of_getElem? hx)

theorem window {i : Nat} (hi : i < btMaxDepth) :
    (snapshot im (Prior.header im)).window i = .ok (g.window.bytes.getD i (m.window i)) := by
  have hroom : (saveHeader r (btV3Export B g)).offWindow + btMaxDepth ≤ im.len := h.room.window
  have hbytes := (h.section_holds (i := 0) rfl).bytes hi
  rw [h.header]
  change readByte im (_ + i) = _
  rw [readByte_ok (by omega), hbytes]

theorem pool (hl : Linked g.bt g.ctx) {i : Nat} (hi : i < g.bt.used) :
    (snapshot im (Prior.header im)).pool i = .ok (g.bt.pool i) := by
  have hroom : (saveHeader r (btV3Export B g)).offPool + g.bt.used * 36 ≤ im.len := h.room.pool
  have hbytes := (h.section_holds (i := 1) rfl).record (fun _ _ => btEntryBytes_length _ _) hi
  have hentry := btEntryAt_of_holds (hl.next i hi) hbytes
  rw [h.header]
  change readBtEntry im (_ + btEntrySize * i) = _
  rw [readBtEntry, im.region_ok (by rw [btEntrySize]; omega), ok_bind, hentry]
  rfl

theorem ctxPool (hl : Linked g.bt g.ctx) {i : Nat} (hi : i < g.ctx.used) :
    (snapshot im (Prior.header im)).ctxPool i = .ok (g.ctx.pool i) := by
  have hroom : (saveHeader r (btV3Export B g)).offCtxPool + g.ctx.used * 40 ≤ im.len :=
    h.room.ctxPool
  have hbytes := (h.section_holds (i := 2) rfl).record (fun _ _ => ctxEntryBytes_length _ _) hi
  have hentry := ctxEntryAt_of_holds (hl.first i hi) hbytes
  rw [h.header]
  change readCtxEntry im (_ + ctxEntrySize * i) = _
  rw [readCtxEntry, im.region_ok (by rw [ctxEntrySize]; omega), ok_bind, hentry]
  rfl

theorem ctxSlot (hl : Linked g.bt g.ctx) {i : Nat} (hi : i < g.ctx.nslots) :
    (snapshot im (Prior.header im)).ctxSlot i = .ok (g.ctx.slot i) := by
  have hroom : (saveHeader r (btV3Export B g)).offCtxSlot + g.ctx.nslots * 4 ≤ im.len :=
    h.room.ctxSlot
  have hbytes := (h.section_holds (i := 3) rfl).record (fun _ _ => intBytes_length _) hi
  have hslot := hbytes.i32 (hl.ctxSlots i)
  rw [h.header]
  change readInt im (_ + 4 * i) = _
  rw [readInt, im.region_ok (by omega), ok_bind, hslot]
  rfl

theorem bloom {i : Nat} (hi : i < B.bloomBits / 8) :
    (snapshot im (Prior.header im)).bloom i = .ok (g.bloom i) := by
  have hroom : (saveHeader r (btV3Export B g)).offBloom + B.bloomBits / 8 ≤ im.len := h.room.bloom
  have hbytes := (h.section_holds (i := 4) rfl).bytes hi
  rw [h.header]
  change readByte im (_ + i) = _
  rw [readByte_ok (by omega), hbytes]

theorem lmCtx {k : Nat} (hk : k < r.lmK) :
    lmCtxAt im (Prior.header im) k = .ok ((List.range r.lmN).map (r.lmCtx k)) := by
  have hlmN : (saveHeader r (btV3Export B g)).lmN = r.lmN := if_neg (by omega)
  have hroom : (saveHeader r (btV3Export B g)).offLmCtx +
      r.lmK * (saveHeader r (btV3Export B g)).lmN ≤ im.len := h.room.lmCtx
  have hmul : (k + 1) * (saveHeader r (btV3Export B g)).lmN ≤
      r.lmK * (saveHeader r (btV3Export B g)).lmN := Nat.mul_le_mul_right _ hk
  rw [Nat.succ_mul] at hmul
  have hbytes := ((h.section_holds (i := 5) rfl).record (fun _ _ => bytes_length _ _) hk).bytesAt
  rw [h.header, lmCtxAt, readBytes_ok (by omega), Nat.mul_comm k]
  exact congrArg Except.ok (hbytes.trans (by rw [hlmN]))

theorem lmCum {k : Nat} (hk : k < r.lmK) :
    readRow im ((Prior.header im).offLmCum + 512 * k) = .ok fun b => (r.lmCum k b).toNat := by
  have hroom : (saveHeader r (btV3Export B g)).offLmCum + r.lmK * 512 ≤ im.len := h.room.lmCum
  have hrow := row16_of_holds
    ((h.section_holds (i := 6) rfl).record (fun _ _ => rowBytes_length _) hk)
  rw [h.header, readRow_ok (by omega), hrow]

theorem schemaModes {pos : Nat} (hpos : pos < r.scRec) :
    readByte im ((Prior.header im).offSchemaModes + pos) = .ok (r.scModes pos) := by
  rw [← r.scPos_eq] at hpos
  have hroom : (saveHeader r (btV3Export B g)).offSchemaModes + r.scPos ≤ im.len :=
    h.room.schemaModes
  have hbytes := (h.section_holds (i := 7) rfl).bytes hpos
  rw [h.header, readByte_ok (by omega), hbytes]

theorem schemaCum {pos : Nat} (hpos : pos < r.scRec) :
    readRow im ((Prior.header im).offSchemaCum + 512 * pos) = .ok fun b => (r.scCum pos b).toNat := by
  rw [← r.scPos_eq] at hpos
  have hroom : (saveHeader r (btV3Export B g)).offSchemaCum + r.scPos * 512 ≤ im.len :=
    h.room.schemaCum
  have hrow := row16_of_holds
    ((h.section_holds (i := 8) rfl).record (fun _ _ => rowBytes_length _) hpos)
  rw [h.header, readRow_ok (by omega), hrow]

end Saved

end Bcb.Prior

