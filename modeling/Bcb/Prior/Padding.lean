import Bcb.Lib.Chunks
import Bcb.Prior.HeaderBytes
import Mathlib.Order.Bounds.Basic

namespace Bcb.Prior.Sha256

open Lib

/-- Bytes written into the block by `memcpy`, `memset` or an assignment. -/
def store (blk : List UInt8) (off : Nat) (l : List UInt8) : Outcome (List UInt8) :=
  if off + l.length ≤ blk.length then pure (blk.take off ++ (l ++ blk.drop (off + l.length)))
  else throw .oob

/-- `for (j = 0; j < 8; j++) blk[56+j] = (unsigned char)(bits >> (56 - 8*j))`. -/
def storeBits (bits : Nat) (blk : List UInt8) : Outcome (List UInt8) :=
  (List.range 8).foldlM (fun blk j => store blk (56 + j) [UInt8.ofNat (bits >>> (56 - 8 * j))]) blk

def digest (h : State) : List UInt8 :=
  [h.a, h.b, h.c, h.d, h.e, h.f, h.g, h.h].flatMap be32Bytes

/-- `sha256` with its `blk`, which begins as whatever is on the stack. -/
def sha256InPlace (stack : Vector UInt8 64) (data : List UInt8) : Outcome (List UInt8) := do
  let full := data.length / 64
  let h := (List.range full).foldl (fun h i => sha256Block h ((data.drop (64 * i)).take 64)) init
  let rem := data.length - 64 * full
  let blk ← store stack.toList 0 (data.drop (64 * full))
  let blk ← store blk rem [0x80]
  if 56 ≤ rem then
    let blk ← store blk (rem + 1) (List.replicate (64 - (rem + 1)) 0)
    let h := sha256Block h blk
    let blk ← store blk 0 (List.replicate 56 0)
    let blk ← storeBits (data.length * 8 % 2 ^ 64) blk
    return digest (sha256Block h blk)
  else
    let blk ← store blk (rem + 1) (List.replicate (56 - (rem + 1)) 0)
    let blk ← storeBits (data.length * 8 % 2 ^ 64) blk
    return digest (sha256Block h blk)

/-! ## In place -/

section InPlace

variable {p o l : List UInt8}

theorem store_next (h : l.length ≤ o.length) :
    store (p ++ o) p.length l = .ok ((p ++ l) ++ o.drop l.length) := by
  have hroom : p.length + l.length ≤ (p ++ o).length := by
    rw [List.length_append]
    omega
  rw [store, if_pos hroom, List.take_left, ← List.drop_drop, List.drop_left, List.append_assoc]
  rfl

def bitsBytes (bits : Nat) : List UInt8 :=
  (List.range 8).map fun j => UInt8.ofNat (bits >>> (56 - 8 * j))

theorem storeBits_eq (hpre : p.length = 56) (hold : o.length = 8) (bits : Nat) :
    storeBits bits (p ++ o) = .ok (p ++ bitsBytes bits) := by
  let f : Nat → UInt8 := fun j => UInt8.ofNat (bits >>> (56 - 8 * j))
  have hrun : ∀ k ≤ 8, (List.range k).foldlM (fun blk j => store blk (56 + j) [f j]) (p ++ o) =
      .ok ((p ++ (List.range k).map f) ++ o.drop k) := by
    intro k hk
    induction k with
    | zero =>
      rw [List.range_zero, List.map_nil, List.append_nil]
      rfl
    | succ k ih =>
      have hlen : (p ++ (List.range k).map f).length = 56 + k := by
        rw [List.length_append, List.length_map, List.length_range, hpre]
      have hroom : [f k].length ≤ (o.drop k).length := by
        rw [List.length_singleton, List.length_drop, hold]
        omega
      have hnext := store_next (p := p ++ (List.range k).map f) hroom
      rw [hlen] at hnext
      rw [List.range_succ, List.foldlM_append, ih (Nat.le_of_succ_le hk), ok_bind,
        List.foldlM_cons, hnext, List.map_append, List.drop_drop, List.append_assoc p]
      rfl
  have hall := hrun 8 le_rfl
  rw [← hold, List.drop_length, List.append_nil, hold] at hall
  exact hall

variable {data : List UInt8}

theorem rest_length (data : List UInt8) :
    (data.drop (64 * (data.length / 64))).length = data.length - 64 * (data.length / 64) :=
  List.length_drop

theorem store_zeros {n : Nat} (h : n ≤ o.length) : store (p ++ o) p.length
    (List.replicate n 0) = .ok ((p ++ List.replicate n 0) ++ o.drop n) := by
  have hnext := store_next (p := p) (l := List.replicate n 0) (List.length_replicate.trans_le h)
  rwa [List.length_replicate] at hnext

/-- Nothing of what was on the stack is left in a block that is hashed. -/
theorem sha256InPlace_eq (stack : Vector UInt8 64) (data : List UInt8) :
    sha256InPlace stack data = .ok (sha256 data) := by
  have hlt : data.length - 64 * (data.length / 64) < 64 := by omega
  have hrest := rest_length data
  rw [sha256InPlace, sha256]
  generalize data.drop (64 * (data.length / 64)) = rest at hrest ⊢
  rw [← hrest] at hlt ⊢
  have hcopy := store_next (p := []) (l := rest) (hlt.le.trans_eq stack.length_toList.symm)
  have hone := store_next (p := rest) (o := stack.toList.drop rest.length) (l := [0x80])
    (by rw [List.length_drop, stack.length_toList]; exact Nat.sub_pos_of_lt hlt)
  have hblk : (rest ++ [0x80]).length = rest.length + 1 := List.length_append
  rw [List.nil_append, List.length_nil, List.nil_append] at hcopy
  simp only [hcopy, hone, ok_bind]
  have hold : ((stack.toList.drop rest.length).drop [(0x80 : UInt8)].length).length =
      64 - (rest.length + 1) := by
    rw [List.drop_drop, List.length_drop, stack.length_toList]
    rfl
  generalize (stack.toList.drop rest.length).drop [(0x80 : UInt8)].length = o at hold ⊢
  split_ifs with hrem
  · -- the block is filled and hashed, and all of it but the length is written anew
    have hfill := store_zeros (p := rest ++ [0x80]) hold.ge
    rw [hblk, List.drop_of_length_le hold.le, List.append_nil] at hfill
    have hfull : (rest ++ [0x80] ++ List.replicate (64 - (rest.length + 1)) 0).length = 64 := by
      rw [List.length_append, hblk, List.length_replicate]
      omega
    have hclear := store_zeros (p := []) (n := 56) ((by decide : 56 ≤ 64).trans_eq hfull.symm)
    rw [List.nil_append, List.length_nil, List.nil_append] at hclear
    rw [hfill, ok_bind, hclear, ok_bind, storeBits_eq]
    · rfl
    · exact List.length_replicate
    · rw [List.length_drop, hfull]
  · have hfill := store_zeros (p := rest ++ [0x80]) (o := o)
      (n := 56 - (rest.length + 1)) (by omega)
    rw [hblk] at hfill
    rw [hfill, ok_bind, storeBits_eq]
    · rfl
    · rw [List.length_append, hblk, List.length_replicate]
      omega
    · rw [List.length_drop, hold]
      omega

end InPlace

/-! ## The standard padding -/

/-- The zero bytes between the end mark and the length. -/
def padZeros (n : Nat) : Nat := (119 - n % 64) % 64

/-- A message, its end mark, zeros, and its length in bits, the highest byte first. -/
def padded (data : List UInt8) : List UInt8 :=
  data ++
    ([0x80] ++ List.replicate (padZeros data.length) 0 ++ (leBytes 8 (data.length * 8)).reverse)

theorem padZeros_least (n : Nat) : IsLeast {z | 64 ∣ n + 1 + z + 8} (padZeros n) := by
  constructor
  · change 64 ∣ n + 1 + padZeros n + 8
    unfold padZeros
    omega
  · intro z hz
    change 64 ∣ n + 1 + z + 8 at hz
    unfold padZeros
    omega

theorem bitsBytes_eq (bits : Nat) : bitsBytes bits = (leBytes 8 bits).reverse := by
  apply List.ext_getElem
  · rw [bitsBytes, List.length_map, List.length_range, List.length_reverse, leBytes_length]
  · intro j hj _
    rw [bitsBytes, List.length_map, List.length_range] at hj
    have hexp : 256 ^ (8 - 1 - j) = 2 ^ (56 - 8 * j) := by
      have h256 : (256 : Nat) = 2 ^ 8 := rfl
      rw [h256, ← pow_mul]
      congr 1
      omega
    simp only [bitsBytes, List.getElem_map, List.getElem_range, List.getElem_reverse,
      leBytes_getElem, leBytes_length]
    rw [hexp, Nat.shiftRight_eq_div_pow]
    apply UInt8.toNat_inj.1
    simp

section Blocks

variable {rest bits : List UInt8}

/-- Where the length has room after the end mark there is one block more. -/
theorem chunks_one (hrest : rest.length < 56) (hbits : bits.length = 8) :
    chunks 64 (rest ++ ([0x80] ++ List.replicate (56 - (rest.length + 1)) 0 ++ bits)) =
      [rest ++ [0x80] ++ List.replicate (56 - (rest.length + 1)) 0 ++ bits] := by
  have hblock :
      (rest ++ ([0x80] ++ List.replicate (56 - (rest.length + 1)) 0 ++ bits)).length = 64 := by
    simp only [List.length_append, List.length_singleton, List.length_replicate, hbits]
    omega
  rw [chunks_single (by decide) hblock, List.append_assoc [0x80], ← List.append_assoc rest,
    ← List.append_assoc (rest ++ [0x80])]

theorem chunks_two (hrest : rest.length < 64) (hbits : bits.length = 8) :
    chunks 64 (rest ++ ([0x80] ++ List.replicate (64 - (rest.length + 1) + 56) 0 ++ bits)) =
      [rest ++ [0x80] ++ List.replicate (64 - (rest.length + 1)) 0,
        List.replicate 56 0 ++ bits] := by
  have hfirst : (rest ++ [0x80] ++ List.replicate (64 - (rest.length + 1)) 0).length = 64 := by
    simp only [List.length_append, List.length_singleton, List.length_replicate]
    omega
  have hsecond : (List.replicate 56 0 ++ bits).length = 64 := by
    rw [List.length_append, List.length_replicate, hbits]
  have happend : rest ++ ([0x80] ++ List.replicate (64 - (rest.length + 1) + 56) 0 ++ bits) =
      (rest ++ [0x80] ++ List.replicate (64 - (rest.length + 1)) 0) ++
        (List.replicate 56 0 ++ bits) := by
    simp only [List.replicate_add, List.append_assoc]
  rw [happend, chunks_append hfirst.symm.dvd, chunks_single (by decide) hfirst,
    chunks_single (by decide) hsecond]
  rfl

end Blocks

theorem sha256_eq {data : List UInt8} (h : data.length < 2 ^ 61) :
    sha256 data = digest ((chunks 64 (padded data)).foldl sha256Block init) := by
  have hbits : data.length * 8 % 2 ^ 64 = data.length * 8 := Nat.mod_eq_of_lt (by omega)
  have hfold : (chunks 64 data).foldl sha256Block init = (List.range (data.length / 64)).foldl
      (fun h i => sha256Block h ((data.drop (64 * i)).take 64)) init := List.foldl_map
  have hzeros : padZeros data.length = (119 - (data.length - 64 * (data.length / 64))) % 64 := by
    unfold padZeros
    omega
  have hlt : data.length - 64 * (data.length / 64) < 64 := by omega
  have hrest := rest_length data
  have hlen : (bitsBytes (data.length * 8)).length = 8 := by
    rw [bitsBytes, List.length_map, List.length_range]
  rw [padded, chunks_append_rest, List.foldl_append, hfold, sha256, hbits, hzeros, ← bitsBytes_eq]
  generalize data.drop (64 * (data.length / 64)) = rest at hrest ⊢
  rw [← hrest] at hlt ⊢
  split_ifs with hrem
  · have hsplit : (119 - rest.length) % 64 = (64 - (rest.length + 1)) + 56 := by omega
    rw [hsplit, chunks_two hlt hlen]
    rfl
  · have hone : (119 - rest.length) % 64 = 56 - (rest.length + 1) := by omega
    rw [hone, chunks_one (not_le.1 hrem) hlen]
    rfl

/-- Whatever the stack holds, the hash is the fold over the blocks of the padded message. -/
theorem sha256_padded {data : List UInt8} (h : data.length < 2 ^ 61) :
    IsLeast {z | 64 ∣ data.length + 1 + z + 8} (padZeros data.length) ∧
      sha256 data = digest ((chunks 64 (padded data)).foldl sha256Block init) ∧
      ∀ stack, sha256InPlace stack data = .ok (sha256 data) :=
  ⟨padZeros_least _, sha256_eq h, fun stack => sha256InPlace_eq stack data⟩

theorem sha256_padded_long : IsLeast {z | 64 ∣ 60 + 1 + z + 8} (padZeros 60) ∧
    sha256 (List.replicate 60 97) =
      digest ((chunks 64 (padded (List.replicate 60 97))).foldl sha256Block init) ∧
    ∀ stack, sha256InPlace stack (List.replicate 60 97) = .ok (sha256 (List.replicate 60 97)) :=
  @sha256_padded (List.replicate 60 97) (by decide)

end Bcb.Prior.Sha256
