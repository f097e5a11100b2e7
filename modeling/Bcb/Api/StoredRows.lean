import Bcb.Api.RoundTrip

/-! The tables a codec takes from stored rows.  A row is used as it stands where it sums to
the scale; nothing asks its widths to be positive. -/

namespace Bcb.Api

open RangeCoder Prior Codec

/-- A table that leaves room for every byte. -/
structure TableOk (cum : Cum) : Prop where
  zero : cum 0 = 0
  width : ∀ b : UInt8, cum b.toNat + 1 ≤ cum (b.toNat + 1)
  total_ge : 256 ≤ cum 256
  total_le : cum 256 ≤ 2 ^ 14

/-- What `bcb_compress` makes of a message, `bcb_decompress` restores. -/
def Restored (B : Build) (p : BcbPrior) (msg : List UInt8) : Prop :=
  ∀ {cacheAlloc : Bool} {al : Alloc} {cap n : Nat} {out out' : Buffer},
    bcbCompress B true p cacheAlloc al msg cap out = .ok (.ok n, out') →
    ∀ {cacheAlloc' : Bool} {al' : Alloc} {cap' : Nat} (buf : Buffer), al'.coder = true →
      al'.output = true → msg.length ≤ cap' →
      ∃ buf', bcbDecompress B true p cacheAlloc' al' (out'.read n) cap' buf =
        .ok (.ok msg.length, buf') ∧ buf'.read msg.length = msg

variable {B : Build} {im : Image} {p : BcbPrior} {cum : Cum}

theorem TableOk.codable (h : TableOk cum) : cum.Codable where
  zero := h.zero
  strict i hi := by
    have hwidth := h.width (UInt8.ofNat i)
    have hnat : (UInt8.ofNat i).toNat = i := Nat.mod_eq_of_lt hi
    rw [hnat] at hwidth
    exact hwidth
  total := h.total_le

theorem TableOk.of_codable (h : cum.Codable) : TableOk cum where
  zero := h.zero
  width b := h.strict b.toNat b.toNat_lt
  total_ge := by
    have hge : ∀ i ≤ 256, i ≤ cum i := by
      intro i hi
      induction i with
      | zero => exact Nat.zero_le _
      | succ i ih => exact (Nat.succ_le_succ (ih (Nat.le_of_succ_le hi))).trans (h.strict i hi)
    exact hge 256 le_rfl
  total_le := h.total

theorem restored_of_codable (hp : priorParse B im = .ok (some p)) (hcod : TablesCodable B p)
    {msg : List UInt8} (hmsg : msg.length < 2 ^ 28) : Restored B p msg := by
  intro cacheAlloc al cap n out out' h cacheAlloc' al' cap' buf hcoder houtput hcap
  obtain ⟨⟨r, out1, c1⟩, hcore, hret⟩ := bind_eq_ok.1 h
  cases hret
  obtain ⟨buf', d', hrun, hread, -⟩ := decompressCore_compressCore hp hcod (.new cacheAlloc)
    (.new cacheAlloc') hmsg hcoder houtput hcore hcap buf
  refine ⟨buf', ?_, hread⟩
  rw [bcbDecompress, hrun]
  rfl

/-- An accepted prior hands out sound tables, and its one-shot calls are lossless, exactly
where the rows it can use have no empty width. -/
theorem storedRows_iff (hp : priorParse B im = .ok (some p)) :
    ((∀ {c c' : BcbCodec} {cum : Cum}, Reachable B p c →
        codecDist B true p rcScale c = .ok (cum, c') → TableOk cum) ∧
      ∀ msg : List UInt8, msg.length < 2 ^ 28 → Restored B p msg) ↔ RowsOk p := by
  constructor
  · rintro ⟨htables, -⟩
    exact (tablesCodable_iff hp).1 fun hc h => (htables hc h).codable
  · intro hrows
    have hcod : TablesCodable B p := (tablesCodable_iff hp).2 hrows
    exact ⟨fun hc h => .of_codable (hcod hc h), fun msg hmsg => restored_of_codable hp hcod hmsg⟩

theorem storedRows_iff_uniform :
    ((∀ {c c' : BcbCodec} {cum : Cum}, Reachable .plain uniformPrior c →
        codecDist .plain true uniformPrior rcScale c = .ok (cum, c') → TableOk cum) ∧
      ∀ msg : List UInt8, msg.length < 2 ^ 28 → Restored .plain uniformPrior msg) ↔
        RowsOk uniformPrior :=
  storedRows_iff (priorParse_schemaImage 0 fun _ => 64)

/-- All of the scale on the byte 0. -/
def zeroRow (b : UInt8) : UInt16 := if b = 0 then 0x4000 else 0

/-- The byte 5 has no width, `bcb_compress` returns a container for it all the same, and
`bcb_decompress` refuses that container. -/
theorem storedRows_zeroRow :
    priorParse .plain (schemaImage 0 zeroRow) = .ok (some (schemaPrior 0 zeroRow)) ∧
    (∃ cum c, codecDist .plain true (schemaPrior 0 zeroRow) rcScale
        (bcbCodecNew .plain (schemaPrior 0 zeroRow) true) = .ok (cum, c) ∧ ¬ TableOk cum) ∧
    (∃ out, bcbCompress .plain true (schemaPrior 0 zeroRow) true ⟨true, true, true⟩ [5] 66
        (fun _ => 0) = .ok (.ok 7, out) ∧
      ∃ buf, bcbDecompress .plain true (schemaPrior 0 zeroRow) true ⟨true, true, true⟩
        (out.read 7) 1 (fun _ => 0) = .ok (.error .corrupted, buf)) := by
  have hdist : (codecDist .plain true (schemaPrior 0 zeroRow) rcScale
      (bcbCodecNew .plain (schemaPrior 0 zeroRow) true)).map (fun x => (x.1 5, x.1 6)) =
        .ok (2 ^ 14, 2 ^ 14) := by
    decide +kernel
  have henc : (bcbCompress .plain true (schemaPrior 0 zeroRow) true ⟨true, true, true⟩ [5] 66
      (fun _ => 0)).map (fun x => (x.1, x.2.read 7)) =
        .ok (.ok 7, [5, 1, 2, 27, 104, 162, 64]) := by
    decide +kernel
  have hdec : (bcbDecompress .plain true (schemaPrior 0 zeroRow) true ⟨true, true, true⟩
      [5, 1, 2, 27, 104, 162, 64] 1 (fun _ => 0)).map (·.1) = .ok (.error .corrupted) := by
    decide +kernel
  refine ⟨priorParse_schemaImage 0 zeroRow, ?_, ?_⟩
  · obtain ⟨⟨cum, c⟩, hrun, heq⟩ := map_eq_ok.1 hdist
    obtain ⟨h5, h6⟩ : cum 5 = 2 ^ 14 ∧ cum 6 = 2 ^ 14 := Prod.mk.inj heq
    refine ⟨cum, c, hrun, fun hok => ?_⟩
    have hwidth : cum 5 + 1 ≤ cum 6 := hok.width 5
    omega
  · obtain ⟨⟨r, out⟩, hrun, heq⟩ := map_eq_ok.1 henc
    obtain ⟨rfl, hread⟩ := Prod.mk.inj heq
    obtain ⟨⟨r', buf⟩, hrun', rfl⟩ := map_eq_ok.1 hdec
    exact ⟨out, hrun, buf, by rw [hread, hrun']⟩

end Bcb.Api
