import Bcb.Prior.HeaderBytes
import Bcb.Prior.Accepted

namespace Bcb.Prior

open Bt

/-- One entry, one context, two slots and a bloom that lets everything through. -/
def countHeader : BcbpHeader where
  magic := bcbpMagic
  version := bcbpVersion
  btEntrySz := btEntrySize
  ctxEntrySz := ctxEntrySize
  btMaxDepth := Bcb.btMaxDepth
  pres := 2 ^ 16
  bloomBits := 2 ^ 24
  poolUsed := 1
  ctxUsed := 1
  ctxNslots := 2
  bloomBytes := 2 ^ 21
  winLen := 0
  lmN := 0
  lmK := 0
  schemaRec := 0
  schemaPos := 0
  offWindow := 252
  offPool := 168
  offCtxPool := 204
  offCtxSlot := 244
  offBloom := 276
  offLmCtx := 168
  offLmCum := 168
  offSchemaModes := 168
  offSchemaCum := 168
  fileSize := 276

/-- The byte `B` has followed the byte `A`, `freq` times of `total`. -/
def countBytes (total freq : Nat) : List UInt8 :=
  List.replicate 24 0 ++ [1, 0x42, 0, 0] ++ leBytes 4 freq ++ leBytes 4 0xFFFFFFFF ++
    0x41 :: List.replicate 23 0 ++ [1, 0, 0, 0] ++ leBytes 4 total ++ leBytes 4 1 ++ leBytes 4 0 ++
    leBytes 4 0 ++ leBytes 4 0xFFFFFFFF ++ List.replicate 24 0

def countByte (total freq : Nat) (i : Nat) : UInt8 :=
  if i < 276 then (countBytes total freq).getD (i - 168) 0 else 0xFF

def countImage (total freq : Nat) : Image :=
  withHeader countHeader (276 + 2 ^ 21) (countByte total freq)

def countPrior (total freq : Nat) : BcbPrior :=
  priorOf (countImage total freq) countHeader (fun _ => -1) 0

theorem countHeader_fits : HeaderFits countHeader := by
  constructor <;> decide

theorem headerOk_countHeader : headerOk countHeader (276 + 2 ^ 21) = true := by decide +kernel

theorem priorParse_countImage {total freq : Nat}
    (h : btV3Validate .plain (snapshot (countImage total freq) countHeader) = .ok true) :
    priorParse .plain (countImage total freq) = .ok (some (countPrior total freq)) := by
  have hheader : header (countImage total freq) = countHeader :=
    header_withHeader countHeader_fits (by simp [headerSize])
  have hlen : ¬ (countImage total freq).len < headerSize := by
    simp [countImage, withHeader, headerSize]
  have hok : headerOk countHeader (countImage total freq).len = true := headerOk_countHeader
  have hindex : lmBuildIndex (lmCtxAt (countImage total freq) countHeader)
      (countHeader.lmK % 2 ^ 32) = .ok (fun _ => -1, 0) := rfl
  simp only [priorParse, if_neg hlen, hheader, hok, h, ok_bind, hindex, Bool.not_true,
    Bool.false_eq_true, if_false]
  rfl

theorem priorParse_countImage_one :
    priorParse .plain (countImage 1 1) = .ok (some (countPrior 1 1)) :=
  priorParse_countImage (by decide +kernel)

end Bcb.Prior
