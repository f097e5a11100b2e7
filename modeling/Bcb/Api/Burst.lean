import Bcb.Api.Defs
import Bcb.Lib.ShiftRegister

namespace Bcb.Api

open Lib

def crcPoly : BitVec 32 := 0xEDB88320

theorem lowMask (c : UInt32) :
    (0 - (c &&& 1)).toBitVec = if c.toBitVec.getLsbD 0 then BitVec.allOnes 32 else 0 := by
  have hlow : (c &&& 1).toBitVec = (BitVec.ofBool (c.toBitVec.getLsbD 0)).setWidth 32 := by
    rw [UInt32.toBitVec_and]
    exact BitVec.and_one_eq_setWidth_ofBool_getLsbD
  rw [UInt32.toBitVec_sub, hlow]
  cases c.toBitVec.getLsbD 0 <;> rfl

theorem crcBit_toBitVec (c : UInt32) :
    (crcBit c).toBitVec = ShiftRegister.step crcPoly c.toBitVec := by
  rw [crcBit, UInt32.toBitVec_xor, UInt32.toBitVec_and, lowMask, ShiftRegister.step]
  congr 1
  cases c.toBitVec.getLsbD 0
  · exact BitVec.and_zero
  · exact BitVec.and_allOnes

theorem crc32Byte_toBitVec (c : UInt32) (b : UInt8) :
    (crc32Byte c b).toBitVec = ShiftRegister.absorb crcPoly c.toBitVec b.toBitVec := by
  have hiter := Function.Semiconj.iterate_right (f := UInt32.toBitVec) crcBit_toBitVec 8
  exact hiter (c ^^^ b.toUInt32)

theorem foldl_crc32Byte (d : List UInt8) (c : UInt32) : (d.foldl crc32Byte c).toBitVec =
    (d.map UInt8.toBitVec).foldl (ShiftRegister.absorb crcPoly) c.toBitVec := by
  induction d generalizing c with
  | nil => rfl
  | cons b d ih =>
    rw [List.foldl_cons, ih, crc32Byte_toBitVec]
    rfl

theorem crc32_burst_append {l k : List UInt8} (hlen : l.length = k.length) (h4 : l.length ≤ 4)
    (hne : l ≠ k) (pre post : List UInt8) :
    crc32 (pre ++ l ++ post) ≠ crc32 (pre ++ k ++ post) := by
  intro heq
  have hfold := congrArg UInt32.toBitVec ((UInt32.xor_left_inj _).1 heq)
  rw [foldl_crc32Byte, foldl_crc32Byte] at hfold
  simp only [List.map_append] at hfold
  refine ShiftRegister.foldl_absorb_burst (by decide) ?_ ?_ ?_ _ hfold
  · rw [List.length_map, List.length_map, hlen]
  · rw [List.length_map]
    omega
  · exact fun hmap => hne (List.map_injective_iff.2 (fun _ _ => UInt8.toBitVec_inj.1) hmap)

/-- Two messages of a length that differ, and only inside four bytes in a row, have different
checksums. -/
theorem crc32_burst {d e : List UInt8} (hlen : d.length = e.length) (hne : d ≠ e) {k : Nat}
    (hwindow : ∀ i, d[i]? ≠ e[i]? → k ≤ i ∧ i < k + 4) : crc32 d ≠ crc32 e := by
  have hpre : d.take k = e.take k := by
    apply List.ext_getElem?
    intro i
    rw [List.getElem?_take, List.getElem?_take]
    split_ifs with hi
    · by_contra hdiff
      have hin := hwindow i hdiff
      omega
    · rfl
  have hpost : (d.drop k).drop 4 = (e.drop k).drop 4 := by
    apply List.ext_getElem?
    intro i
    rw [List.drop_drop, List.drop_drop, List.getElem?_drop, List.getElem?_drop]
    by_contra hdiff
    have hin := hwindow _ hdiff
    omega
  have hsplit : ∀ l : List UInt8, l = l.take k ++ (l.drop k).take 4 ++ (l.drop k).drop 4 := by
    intro l
    rw [List.append_assoc, List.take_append_drop, List.take_append_drop]
  rw [hsplit d, hsplit e, hpre, hpost]
  apply crc32_burst_append
  · simp only [List.length_take, List.length_drop, hlen]
  · exact List.length_take_le _ _
  · intro hmid
    apply hne
    rw [hsplit d, hsplit e, hpre, hpost, hmid]

theorem crc32_burst_four : crc32 [7, 1, 2, 3, 4, 7] ≠ crc32 [7, 5, 6, 7, 8, 7] := by
  refine crc32_burst (k := 1) rfl (by decide) ?_
  intro i hi
  match i with
  | 0 => exact absurd rfl hi
  | 1 | 2 | 3 | 4 => decide
  | 5 => exact absurd rfl hi
  | _ + 6 => exact absurd rfl hi

end Bcb.Api
