import Bcb.Prior.HeaderBytes
import Bcb.Prior.Accepted

namespace Bcb.Prior

open Bt

/-- No count tables but one empty slot, then the mode, the row and an empty bloom. -/
def schemaHeader : BcbpHeader where
  magic := bcbpMagic
  version := bcbpVersion
  btEntrySz := btEntrySize
  ctxEntrySz := ctxEntrySize
  btMaxDepth := Bcb.btMaxDepth
  pres := 2 ^ 16
  bloomBits := 2 ^ 24
  poolUsed := 0
  ctxUsed := 0
  ctxNslots := 1
  bloomBytes := 2 ^ 21
  winLen := 0
  lmN := 0
  lmK := 0
  schemaRec := 1
  schemaPos := 1
  offWindow := 688
  offPool := 168
  offCtxPool := 168
  offCtxSlot := 168
  offBloom := 688
  offLmCtx := 168
  offLmCum := 168
  offSchemaModes := 172
  offSchemaCum := 176
  fileSize := 688

def schemaByte (mode : UInt8) (row : UInt8 → UInt16) (i : Nat) : UInt8 :=
  if i < 172 then 0xFF
  else if i = 172 then mode
  else if i < 176 then 0
  else if i < 688 then
    let w := row (UInt8.ofNat ((i - 176) / 2))
    if i % 2 = 0 then w.toUInt8 else (w >>> 8).toUInt8
  else 0

def schemaImage (mode : UInt8) (row : UInt8 → UInt16) : Image :=
  withHeader schemaHeader (688 + 2 ^ 21) (schemaByte mode row)

def schemaPrior (mode : UInt8) (row : UInt8 → UInt16) : BcbPrior :=
  priorOf (schemaImage mode row) schemaHeader (fun _ => -1) 0

variable (mode : UInt8) (row : UInt8 → UInt16)

@[simp] theorem schemaImage_len : (schemaImage mode row).len = 688 + 2 ^ 21 := rfl

theorem schemaImage_byteAt {i : Nat} (h1 : 168 ≤ i) (h2 : i < 688 + 2 ^ 21) :
    (schemaImage mode row).byteAt i = schemaByte mode row i := withHeader_byteAt h1 h2

theorem schemaHeader_fits : HeaderFits schemaHeader := by
  constructor <;> decide

@[simp] theorem header_schemaImage : header (schemaImage mode row) = schemaHeader :=
  header_withHeader schemaHeader_fits (by simp [headerSize])

@[simp] theorem schemaImage_slot : (schemaImage mode row).i32 168 = -1 := by
  have hbyte : ∀ i < 4, (schemaImage mode row).byteAt (168 + i) = 0xFF := fun i hi =>
    (schemaImage_byteAt mode row (by omega) (by omega)).trans (if_pos (by omega))
  have hle : (schemaImage mode row).le 168 4 = 2 ^ 32 - 1 := by
    simp only [Image.le, hbyte 0 (by decide), hbyte 1 (by decide), hbyte 2 (by decide),
      hbyte 3 (by decide)]
    rfl
  rw [Image.i32, hle]
  decide +kernel

@[simp] theorem schemaImage_ctxSlot :
    (snapshot (schemaImage mode row) schemaHeader).ctxSlot 0 = .ok (-1) := by
  have hlen : schemaHeader.offCtxSlot + 4 * 0 + 4 ≤ (schemaImage mode row).len := by
    simp [schemaImage_len, schemaHeader]
  change readInt (schemaImage mode row) (schemaHeader.offCtxSlot + 4 * 0) = _
  rw [readInt, Image.region_ok _ hlen, ok_bind, ← schemaImage_slot mode row]
  rfl

@[simp] theorem sameBuild_schemaHeader (im : Image) :
    (snapshot im schemaHeader).sameBuild .plain = true := by
  simp [snapshot, schemaHeader, BtV3Snapshot.sameBuild, Build.plain, Build.bloomBits,
    Build.bloomLog, Build.pres, Build.presBits]

theorem schemaImage_valid :
    btV3Validate .plain (snapshot (schemaImage mode row) schemaHeader) = .ok true := by
  have hslots : (snapshot (schemaImage mode row) schemaHeader).ctxNslots = 1 := rfl
  have hctx : (snapshot (schemaImage mode row) schemaHeader).ctxUsed = 0 := rfl
  have hpool : (snapshot (schemaImage mode row) schemaHeader).poolUsed = 0 := rfl
  simp [btV3Validate, sameBuild_schemaHeader, hslots, hctx, hpool, checkSlots,
    schemaImage_ctxSlot, link, allFrom, pure, Except.pure]

theorem headerOk_schemaHeader : headerOk schemaHeader (688 + 2 ^ 21) = true := by decide +kernel

theorem priorParse_schemaImage :
    priorParse .plain (schemaImage mode row) = .ok (some (schemaPrior mode row)) := by
  have hlen : ¬ (schemaImage mode row).len < headerSize := by simp [schemaImage_len, headerSize]
  have hok : headerOk schemaHeader (schemaImage mode row).len = true := headerOk_schemaHeader
  have hindex : lmBuildIndex (lmCtxAt (schemaImage mode row) schemaHeader)
      (schemaHeader.lmK % 2 ^ 32) = .ok (fun _ => -1, 0) := rfl
  simp only [priorParse, if_neg hlen, header_schemaImage, hok, schemaImage_valid, ok_bind, hindex,
    Bool.not_true, Bool.false_eq_true, if_false]
  rfl

theorem schemaByte_row {i : Nat} (h1 : 176 ≤ i) (h2 : i < 688) :
    schemaByte mode row i = if i % 2 = 0 then (row (UInt8.ofNat ((i - 176) / 2))).toUInt8
      else (row (UInt8.ofNat ((i - 176) / 2)) >>> 8).toUInt8 := by
  rw [schemaByte, if_neg (by omega), if_neg (by omega), if_neg (by omega), if_pos h2]

@[simp] theorem schemaPrior_cum :
    (schemaPrior mode row).schemaCum 0 = .ok fun b => (row b).toNat := by
  have hlen : 176 + 512 ≤ (schemaImage mode row).len := by simp [schemaImage_len]
  change readRow (schemaImage mode row) 176 = _
  rw [readRow_ok hlen]
  congr 1
  funext b
  have hb : b.toNat < 256 := b.toNat_lt
  have hlow : (176 + 2 * b.toNat + 0) % 2 = 0 := by omega
  have hhigh : (176 + 2 * b.toNat + 1) % 2 ≠ 0 := by omega
  have hidx0 : (176 + 2 * b.toNat + 0 - 176) / 2 = b.toNat := by omega
  have hidx1 : (176 + 2 * b.toNat + 1 - 176) / 2 = b.toNat := by omega
  have hrow := (row b).toNat_lt
  simp only [Image.row16, Image.le,
    schemaImage_byteAt mode row (i := 176 + 2 * b.toNat + 0) (by omega) (by omega),
    schemaImage_byteAt mode row (i := 176 + 2 * b.toNat + 1) (by omega) (by omega),
    schemaByte_row mode row (i := 176 + 2 * b.toNat + 0) (by omega) (by omega),
    schemaByte_row mode row (i := 176 + 2 * b.toNat + 1) (by omega) (by omega),
    if_pos hlow, if_neg hhigh, hidx0, hidx1, UInt8.ofNat_toNat]
  simp only [UInt16.toNat_toUInt8, UInt16.toNat_shiftRight, Nat.shiftRight_eq_div_pow]
  have h8 : UInt16.toNat 8 % 16 = 8 := rfl
  rw [h8]
  omega

@[simp] theorem schemaPrior_mode : (schemaPrior mode row).schemaModes 0 = .ok mode := by
  have hlen : 172 + 1 ≤ (schemaImage mode row).len := by simp [schemaImage_len]
  change readByte (schemaImage mode row) 172 = _
  rw [readByte_ok hlen, schemaImage_byteAt mode row (by omega) (by omega), schemaByte,
    if_neg (by decide), if_pos rfl]

end Bcb.Prior
