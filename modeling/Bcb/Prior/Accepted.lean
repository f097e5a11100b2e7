import Bcb.Prior.Parse

namespace Bcb.Prior

open Bt

variable {B : Build} {im : Image} {p : BcbPrior}

theorem priorParse_some (h : priorParse B im = .ok (some p)) :
    headerOk (header im) im.len = true ∧ btV3Validate B (snapshot im (header im)) = .ok true ∧
      ∃ slot mask, lmBuildIndex (lmCtxAt im (header im)) ((header im).lmK % 2 ^ 32) =
        .ok (slot, mask) ∧ p = priorOf im (header im) slot mask := by
  simp only [priorParse] at h
  split_ifs at h with hlen hok
  · cases h
  · cases h
  · obtain ⟨valid, hvalid, h⟩ := bind_eq_ok.1 h
    cases valid with
    | false => cases h
    | true =>
      obtain ⟨⟨slot, mask⟩, hindex, h⟩ := bind_eq_ok.1 h
      refine ⟨?_, hvalid, slot, mask, hindex, (Option.some.inj (Except.ok.inj h)).symm⟩
      simpa using hok

@[simp] theorem regionInBounds_iff {off nbytes len : Nat} :
    regionInBounds off nbytes len = true ↔ off + nbytes ≤ len := by
  simp only [regionInBounds, Bool.and_eq_true, decide_eq_true_eq]
  omega

theorem mulNoOverflow_some {a b sz : Nat} (h : mulNoOverflow a b = some sz) : sz = a * b := by
  unfold mulNoOverflow at h
  split_ifs at h
  exact (Option.some.inj h).symm

theorem arrayInBounds_le {off a b len : Nat} (h : arrayInBounds off a b len = true) :
    off + a * b ≤ len := by
  unfold arrayInBounds at h
  cases hsz : mulNoOverflow a b with
  | none => simp [hsz] at h
  | some sz =>
    rw [hsz] at h
    rw [← mulNoOverflow_some hsz]
    exact regionInBounds_iff.1 h

/-- The regions a header declares lie in the image. -/
structure HeaderBounds (h : BcbpHeader) (len : Nat) : Prop where
  pool : h.offPool + h.poolUsed * h.btEntrySz ≤ len
  ctxPool : h.offCtxPool + h.ctxUsed * h.ctxEntrySz ≤ len
  ctxSlot : h.offCtxSlot + h.ctxNslots * 4 ≤ len
  bloom : h.offBloom + h.bloomBytes ≤ len
  lm : h.lmK ≠ 0 → 1 ≤ h.lmN ∧ h.lmN ≤ btMaxDepth ∧ h.offLmCtx + h.lmK * h.lmN ≤ len ∧
    h.offLmCum + h.lmK * 512 ≤ len
  schema : h.schemaRec ≠ 0 → h.schemaPos = h.schemaRec ∧ h.schemaRec ≤ schemaMax ∧
    h.offSchemaModes + h.schemaPos ≤ len ∧ h.offSchemaCum + h.schemaPos * 512 ≤ len

theorem headerOk_bounds {h : BcbpHeader} {len : Nat} (hok : headerOk h len = true) :
    HeaderBounds h len := by
  simp only [headerOk, Bool.and_eq_true, Bool.or_eq_true, decide_eq_true_eq] at hok
  obtain ⟨⟨⟨⟨⟨⟨⟨⟨-, -⟩, hpool⟩, hctx⟩, hslot⟩, hbloom⟩, -⟩, hlm⟩, hschema⟩ := hok
  refine ⟨arrayInBounds_le hpool, arrayInBounds_le hctx, arrayInBounds_le hslot,
    regionInBounds_iff.1 hbloom, ?_, ?_⟩
  · intro hk
    obtain hk0 | ⟨⟨⟨h1, h24⟩, hctx⟩, hcum⟩ := hlm
    · exact absurd hk0 hk
    · exact ⟨h1, h24, arrayInBounds_le hctx, arrayInBounds_le hcum⟩
  · intro hrec
    obtain hrec0 | ⟨⟨⟨hpos, hmax⟩, hmodes⟩, hcum⟩ := hschema
    · exact absurd hrec0 hrec
    · exact ⟨hpos, hmax, regionInBounds_iff.1 hmodes, arrayInBounds_le hcum⟩

theorem headerOk_window {h : BcbpHeader} {len : Nat} (hok : headerOk h len = true) :
    h.offWindow + h.btMaxDepth ≤ len ∧ h.winLen.toNat ≤ h.btMaxDepth := by
  simp only [headerOk, Bool.and_eq_true, decide_eq_true_eq] at hok
  obtain ⟨⟨⟨⟨⟨⟨⟨⟨-, hwindow⟩, -⟩, -⟩, -⟩, -⟩, h0, hlen⟩, -⟩, -⟩ := hok
  exact ⟨regionInBounds_iff.1 hwindow, by omega⟩

@[simp] theorem be32Bytes_length (x : UInt32) : (Sha256.be32Bytes x).length = 4 := rfl

@[simp] theorem sha256_length (data : List UInt8) : (Sha256.sha256 data).length = 32 := by
  simp [Sha256.sha256, List.flatMap_cons, be32Bytes_length]

theorem readRow_ok {off : Nat} (h : off + 512 ≤ im.len) :
    readRow im off = .ok (im.row16 off) := by
  rw [readRow, im.region_ok h]
  rfl

theorem readByte_ok {off : Nat} (h : off + 1 ≤ im.len) :
    readByte im off = .ok (im.byteAt off) := by
  rw [readByte, im.region_ok h]
  rfl

/-- The schema of a loaded prior is whole: a record has as many rows and modes as bytes. -/
structure SchemaReadable (p : BcbPrior) : Prop where
  pos : p.schemaPos = p.schemaRec
  le_max : p.schemaRec ≤ schemaMax
  row : ∀ i < p.schemaPos, ∃ w, p.schemaCum i = .ok w ∧ ∀ b, w b < 2 ^ 16
  mode : ∀ i < p.schemaPos, ∃ m, p.schemaModes i = .ok m

theorem priorParse_schema (h : priorParse B im = .ok (some p)) (hrec : p.schemaRec ≠ 0) :
    SchemaReadable p := by
  obtain ⟨hok, -, slot, mask, -, rfl⟩ := priorParse_some h
  obtain ⟨hpos, hmax, hmodes, hcum⟩ := (headerOk_bounds hok).schema hrec
  refine ⟨hpos, hmax, ?_, ?_⟩
  · intro i hi
    change i < (header im).schemaPos at hi
    exact ⟨_, readRow_ok (by omega), im.row16_lt _⟩
  · intro i hi
    change i < (header im).schemaPos at hi
    exact ⟨_, readByte_ok (by omega)⟩

/-- The landmarks of a loaded prior and its index over them. -/
structure LandmarksReadable (L : Landmarks) (ctx : Nat → List UInt8) : Prop where
  lt : L.lmK < 2 ^ 32
  depth : L.lmK ≠ 0 → L.lmN ≤ btMaxDepth
  read : ∀ k < L.lmK, L.lmCtx k = .ok (ctx k)
  length : ∀ k, (ctx k).length = L.lmN
  row : ∀ k < L.lmK, ∃ w, L.lmCum k = .ok w ∧ ∀ b, w b < 2 ^ 16
  index : lmBuildIndex L.lmCtx L.lmK = .ok (L.lmSlot, L.lmMask)

theorem readBytes_ok {off n : Nat} (h : off + n ≤ im.len) :
    readBytes im off n = .ok (im.bytesAt off n) := by
  rw [readBytes, im.region_ok h]
  rfl

/-- The bytes of landmark `k`. -/
def lmBytes (im : Image) (h : BcbpHeader) (k : Nat) : List UInt8 :=
  im.bytesAt (h.offLmCtx + k * h.lmN) h.lmN

theorem lmCtxAt_ok {h : BcbpHeader} (hb : HeaderBounds h im.len) {k : Nat}
    (hk : k < h.lmK % 2 ^ 32) : lmCtxAt im h k = .ok (lmBytes im h k) := by
  have hlt : k < h.lmK := hk.trans_le (Nat.mod_le _ _)
  obtain ⟨-, -, hctx, -⟩ := hb.lm (by omega)
  have hmul : (k + 1) * h.lmN ≤ h.lmK * h.lmN := Nat.mul_le_mul_right _ hlt
  rw [Nat.succ_mul] at hmul
  exact readBytes_ok (by omega)

theorem priorParse_landmarks (h : priorParse B im = .ok (some p)) :
    LandmarksReadable p.toLandmarks (lmBytes im (header im)) := by
  obtain ⟨hok, -, slot, mask, hindex, rfl⟩ := priorParse_some h
  have hb := headerOk_bounds hok
  refine ⟨Nat.mod_lt _ (by norm_num), ?_, ?_, ?_, ?_, hindex⟩
  · intro hk
    change (header im).lmK % 2 ^ 32 ≠ 0 at hk
    exact (hb.lm (by omega)).2.1
  · exact fun k hk => lmCtxAt_ok hb hk
  · intro k
    simp only [lmBytes, Image.bytesAt, List.length_map, List.length_range]
    rfl
  · intro k hk
    change k < (header im).lmK % 2 ^ 32 at hk
    have hlt : k < (header im).lmK := hk.trans_le (Nat.mod_le _ _)
    obtain ⟨-, -, -, hcum⟩ := hb.lm (by omega)
    exact ⟨_, readRow_ok (by omega), im.row16_lt _⟩

theorem priorParse_id (h : priorParse B im = .ok (some p)) : p.id.length = 16 := by
  obtain ⟨-, -, slot, mask, -, rfl⟩ := priorParse_some h
  change ((Sha256.sha256 _).take 16).length = 16
  rw [List.length_take, sha256_length]
  rfl

end Bcb.Prior
