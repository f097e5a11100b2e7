import Bcb.Bt.Accepts
import Bcb.Lib.Overlay
import Bcb.Prior.LandmarkIndex
import Bcb.Prior.ReadBack
import Bcb.Prior.SameBytes

namespace Bcb.Prior

open Lib Bt

/-- What a header declares, but for the window, which coding does not read. -/
inductive Region
  | pool
  | ctxPool
  | ctxSlot
  | bloom
  | lmCtx
  | lmCum
  | schemaModes
  | schemaCum
  deriving DecidableEq

namespace Region

def all : List Region := [pool, ctxPool, ctxSlot, bloom, lmCtx, lmCum, schemaModes, schemaCum]

@[simp] theorem mem_all (s : Region) : s ∈ all := by cases s <;> decide

variable (h : BcbpHeader)

def off : Region → Nat
  | pool => h.offPool
  | ctxPool => h.offCtxPool
  | ctxSlot => h.offCtxSlot
  | bloom => h.offBloom
  | lmCtx => h.offLmCtx
  | lmCum => h.offLmCum
  | schemaModes => h.offSchemaModes
  | schemaCum => h.offSchemaCum

/-- The size of its records. -/
def size : Region → Nat
  | pool => btEntrySize
  | ctxPool => ctxEntrySize
  | ctxSlot => 4
  | bloom => 1
  | lmCtx => h.lmN
  | lmCum => 512
  | schemaModes => 1
  | schemaCum => 512

/-- Their number. -/
def count : Region → Nat
  | pool => h.poolUsed
  | ctxPool => h.ctxUsed
  | ctxSlot => h.ctxNslots
  | bloom => h.bloomBytes
  | lmCtx => h.lmK
  | lmCum => h.lmK
  | schemaModes => if h.schemaRec = 0 then 0 else h.schemaPos
  | schemaCum => if h.schemaRec = 0 then 0 else h.schemaPos

def len (s : Region) : Nat := s.size h * s.count h

end Region

/-- The regions overlap neither the header nor one another. -/
structure LaidApart (h : BcbpHeader) : Prop where
  header : ∀ s : Region, s.len h ≠ 0 → headerSize ≤ s.off h
  apart : Apart (Region.off h) (Region.len h)

/-- Records for all regions. -/
structure Filling where
  pool : Nat → BtEntry
  ctxPool : Nat → CtxEntry
  ctxSlot : Nat → Int
  bloom : Nat → UInt8
  lmCtx : Nat → Nat → UInt8
  lmCum : Nat → UInt8 → UInt16
  schemaModes : Nat → UInt8
  schemaCum : Nat → UInt8 → UInt16

/-- The bytes of a record. -/
def Filling.record (f : Filling) (h : BcbpHeader) : Region → Nat → List UInt8
  | .pool, k => btEntryBytes (fun _ => 0) (f.pool k)
  | .ctxPool, k => ctxEntryBytes (fun _ => 0) (f.ctxPool k)
  | .ctxSlot, k => intBytes (f.ctxSlot k)
  | .bloom, k => [f.bloom k]
  | .lmCtx, k => (List.range h.lmN).map (f.lmCtx k)
  | .lmCum, k => rowBytes (f.lmCum k)
  | .schemaModes, k => [f.schemaModes k]
  | .schemaCum, k => rowBytes (f.schemaCum k)

variable {h : BcbpHeader} {f f' : Filling} {im : Image} {s : Region} {k : Nat}

@[simp] theorem Filling.record_length (s : Region) (k : Nat) :
    (f.record h s k).length = s.size h := by
  cases s with
  | pool => exact btEntryBytes_length _ _
  | ctxPool => exact ctxEntryBytes_length _ _
  | ctxSlot => exact intBytes_length _
  | bloom => rfl
  | lmCtx => exact bytes_length _ _
  | lmCum => exact rowBytes_length _
  | schemaModes => rfl
  | schemaCum => exact rowBytes_length _

/-- An image with all regions filled, and the other bytes as they were. -/
def Filling.image (f : Filling) (h : BcbpHeader) (im : Image) : Image where
  len := im.len
  byte i := overlay (Region.off h) (Region.len h) (fun s => recordCell (s.size h) (f.record h s) 0)
    im.byteAt Region.all i

namespace Filling

theorem byteAt_image {i : Nat} (hi : i < im.len) : (f.image h im).byteAt i =
    overlay (Region.off h) (Region.len h) (fun s => recordCell (s.size h) (f.record h s) 0)
      im.byteAt Region.all i := dif_pos hi

theorem image_header (ha : LaidApart h) (hlen : headerSize ≤ im.len) :
    header (f.image h im) = header im := by
  apply SameUpTo.header
  refine ⟨hlen, hlen, fun i hi => ?_⟩
  rw [byteAt_image (hi.trans_le hlen)]
  apply overlay_base
  intro s _
  by_cases h0 : s.len h = 0
  · omega
  · exact .inl (hi.trans_le (ha.header s h0))

theorem byteAt_congr {m j : Nat} (hrec : ∀ t k, (t ≠ s ∨ k ≠ m) → f.record h t k = f'.record h t k)
    (hm : SameBut j (f.record h s m) (f'.record h s m)) {i : Nat}
    (hi : i < s.off h + s.size h * m + j) :
    (f.image h im).byteAt i = (f'.image h im).byteAt i := by
  by_cases hlt : i < im.len
  · rw [byteAt_image hlt, byteAt_image hlt]
    apply overlay_congr rfl
    intro t _ l _ hl
    by_cases hts : t = s
    · subst hts
      exact recordCell_congr (fun k hk => hrec t k (.inr hk)) hm (by omega)
    · rw [recordCell, recordCell, hrec t _ (.inl hts)]
  · have hge : ¬ i < (f.image h im).len := hlt
    have hge' : ¬ i < (f'.image h im).len := hlt
    rw [Image.byteAt, Image.byteAt, dif_neg hge, dif_neg hge']

/-! ## What is read from a filled image -/

section Reads

variable (ha : LaidApart h) (hb : ∀ s : Region, s.len h ≠ 0 → s.off h + s.len h ≤ im.len)

include hb

theorem record_le (hk : k < s.count h) (hs : s.size h ≠ 0) :
    s.off h + s.size h * k + s.size h ≤ im.len := by
  have hle : s.size h * k + s.size h ≤ s.len h := by
    rw [Region.len, ← Nat.mul_succ]
    exact Nat.mul_le_mul_left _ hk
  have hbound := hb s (by omega)
  omega

include ha

theorem image_holds (hk : k < s.count h) :
    Holds (f.image h im) (s.off h + s.size h * k) (f.record h s k) := by
  intro j hj
  have hj' : j < s.size h := by rwa [record_length] at hj
  have hin := record_le hb hk (by omega)
  have hlt : s.size h * k + j < s.len h := by
    rw [Region.len]
    calc s.size h * k + j < s.size h * k + s.size h := Nat.add_lt_add_left hj' _
      _ = s.size h * (k + 1) := (Nat.mul_succ _ _).symm
      _ ≤ s.size h * s.count h := Nat.mul_le_mul_left _ hk
  rw [byteAt_image (by omega), Nat.add_assoc, overlay_eq ha.apart s.mem_all hlt,
    recordCell_eq (record_length s k) hj]

theorem image_pool (hk : k < h.poolUsed) {n : Nat} (href : Ref n (f.pool k).ctxNext) :
    (snapshot (f.image h im) h).pool k = .ok (f.pool k) := by
  have hin : h.offPool + btEntrySize * k + btEntrySize ≤ im.len :=
    record_le hb (s := .pool) hk (Nat.succ_ne_zero 35)
  have hentry := btEntryAt_of_holds href (image_holds (f := f) ha hb (s := .pool) hk)
  change readBtEntry (f.image h im) _ = _
  rw [readBtEntry, (f.image h im).region_ok hin]
  exact congrArg Except.ok hentry

theorem image_ctxPool (hk : k < h.ctxUsed) {n : Nat} (href : Ref n (f.ctxPool k).firstEntry) :
    (snapshot (f.image h im) h).ctxPool k = .ok (f.ctxPool k) := by
  have hin : h.offCtxPool + ctxEntrySize * k + ctxEntrySize ≤ im.len :=
    record_le hb (s := .ctxPool) hk (Nat.succ_ne_zero 39)
  have hentry := ctxEntryAt_of_holds href (image_holds (f := f) ha hb (s := .ctxPool) hk)
  change readCtxEntry (f.image h im) _ = _
  rw [readCtxEntry, (f.image h im).region_ok hin]
  exact congrArg Except.ok hentry

theorem image_ctxSlot (hk : k < h.ctxNslots) {n : Nat} (href : Ref n (f.ctxSlot k)) :
    (snapshot (f.image h im) h).ctxSlot k = .ok (f.ctxSlot k) := by
  have hin : h.offCtxSlot + 4 * k + 4 ≤ im.len := record_le hb (s := .ctxSlot) hk (Nat.succ_ne_zero 3)
  have hslot := (image_holds (f := f) ha hb (s := .ctxSlot) hk).i32 href
  change readInt (f.image h im) _ = _
  rw [readInt, (f.image h im).region_ok hin]
  exact congrArg Except.ok hslot

theorem image_byte {b : UInt8} (hrec : f.record h s k = [b]) (hk : k < s.count h) :
    readByte (f.image h im) (s.off h + k) = .ok b := by
  have hsize : s.size h = 1 := by rw [← f.record_length s k, hrec, List.length_singleton]
  have hin := record_le hb hk (by omega)
  have hbyte := image_holds (f := f) ha hb hk
  rw [hrec, hsize, Nat.one_mul] at hbyte
  rw [hsize] at hin
  have h0 : (f.image h im).byteAt (s.off h + k) = b := hbyte 0 (by simp)
  have hin' : s.off h + k + 1 ≤ (f.image h im).len := by
    change _ ≤ im.len
    omega
  rw [readByte_ok hin', h0]

theorem image_row {w : UInt8 → UInt16} (hsize : s.size h = 512) (hrec : f.record h s k = rowBytes w)
    (hk : k < s.count h) :
    readRow (f.image h im) (s.off h + 512 * k) = .ok fun b => (w b).toNat := by
  have hin := record_le hb hk (by omega)
  have hrow := image_holds (f := f) ha hb hk
  rw [hrec, hsize] at hrow
  rw [hsize] at hin
  have hread : readRow (f.image h im) (s.off h + 512 * k) =
      .ok ((f.image h im).row16 (s.off h + 512 * k)) := readRow_ok hin
  rw [hread, row16_of_holds hrow]

theorem image_lmBytes (hk : k < h.lmK) :
    lmBytes (f.image h im) h k = (List.range h.lmN).map (f.lmCtx k) := by
  have hbytes := image_holds (f := f) ha hb (s := .lmCtx) hk
  rw [lmBytes, Nat.mul_comm]
  exact hbytes.bytesAt

end Reads

/-! ## Accepted fillings -/

/-- A filling with indices in bounds, a free slot, links that lead down, and one chain at most. -/
structure Tame (h : BcbpHeader) (f : Filling) : Prop where
  slot : ∀ k < h.ctxNslots, Ref h.ctxUsed (f.ctxSlot k)
  free : ∃ k < h.ctxNslots, link (f.ctxSlot k) = none
  ctxLen : ∀ k < h.ctxUsed, (f.ctxPool k).ctxLen.toNat ≤ btMaxDepth
  first : ∀ k < h.ctxUsed, Ref h.poolUsed (f.ctxPool k).firstEntry
  sole : ∀ k k', (link (f.ctxPool k).firstEntry).isSome → (link (f.ctxPool k').firstEntry).isSome →
    k = k'
  entryLen : ∀ k < h.poolUsed, (f.pool k).ctxLen.toNat ≤ btMaxDepth
  next : ∀ k < h.poolUsed, Ref h.poolUsed (f.pool k).ctxNext
  down : ∀ k, ∀ j, link (f.pool k).ctxNext = some j → j < k

def next (f : Filling) (k : Nat) : Option Nat := link (f.pool k).ctxNext

namespace Tame

variable (hf : Tame h f)

include hf

theorem exists_chain (o : Option Nat) : ∃ l, Chain f.next o l := by
  have hall : ∀ k, ∃ l, Chain f.next (some k) l := by
    intro k
    induction k using Nat.strong_induction_on with
    | _ k ih =>
      cases hnext : f.next k with
      | none => exact ⟨[k], .cons (hnext ▸ .nil)⟩
      | some j =>
        obtain ⟨l, hl⟩ := ih j (hf.down k j hnext)
        exact ⟨k :: l, .cons (hnext ▸ hl)⟩
  cases o with
  | none => exact ⟨[], .nil⟩
  | some k => exact hall k

variable (ha : LaidApart h) (hb : ∀ s : Region, s.len h ≠ 0 → s.off h + s.len h ≤ im.len)

include ha hb

theorem next_eq (hk : k < h.poolUsed) : (snapshot (f.image h im) h).next k = f.next k := by
  rw [BtV3Snapshot.next, BtV3Snapshot.cell_eq (image_pool ha hb hk (hf.next k hk))]
  rfl

theorem acceptable (hsize : ∃ j, h.ctxNslots = 2 ^ j) :
    ∃ chain, Acceptable (snapshot (f.image h im) h) chain := by
  choose chain hchain using fun k => hf.exists_chain (link (f.ctxPool k).firstEntry)
  have hbelow : ∀ k < h.ctxUsed, ∀ j ∈ chain k, j < h.poolUsed := fun k hk =>
    (hchain k).mem_lt (hf.first k hk).below fun i _ hi => (hf.next i hi).below
  refine ⟨chain, hsize, ?_, ?_, ?_, ?_, hbelow, ?_⟩
  · exact fun k hk => ⟨_, image_ctxSlot ha hb hk (hf.slot k hk), (hf.slot k hk).below⟩
  · obtain ⟨k, hk, hfree⟩ := hf.free
    exact ⟨k, hk, _, image_ctxSlot ha hb hk (hf.slot k hk), hfree⟩
  · intro k hk
    refine ⟨_, image_ctxPool ha hb hk (hf.first k hk), hf.ctxLen k hk, ?_⟩
    exact (hchain k).congr fun j hj => hf.next_eq ha hb (hbelow k hk j hj)
  · exact fun k hk => ⟨_, image_pool ha hb hk (hf.next k hk), hf.entryLen k hk, (hf.next k hk).below⟩
  · intro k _ k' _ hne j hj
    have hsome : ∀ {k}, j ∈ chain k → (link (f.ctxPool k).firstEntry).isSome := by
      intro k hj
      have hc := hchain k
      cases hl : link (f.ctxPool k).firstEntry with
      | none =>
        rw [hl] at hc
        rw [hc.unique .nil] at hj
        cases hj
      | some i => rfl
    exact fun hj' => hne (hf.sole k k' (hsome hj) (hsome hj'))

end Tame

end Filling

end Bcb.Prior
