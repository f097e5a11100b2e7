import Bcb.Api.Integrity
import Bcb.Api.Reads

namespace Bcb.Api

open RangeCoder Prior Codec

/-- Every table handed to the range coder is computed and strictly increasing. -/
def TablesStrict (B : Build) (p : BcbPrior) : Prop :=
  ∀ {c : BcbCodec}, Reachable B p c → ∃ cum c', codecDist B true p rcScale c = .ok (cum, c') ∧
    ∀ i < 256, cum i < cum (i + 1)

/-- After an error the buffer is what it was; a length is within the capacity, and nothing has
changed behind it. -/
structure Framed (cap : Nat) (out : Buffer) (r : Ret) (out' : Buffer) : Prop where
  error : ∀ s, r = .error s → out' = out
  ok : ∀ n, r = .ok n → n ≤ cap ∧ ∀ i, n ≤ i → out' i = out i

/-- The length behind the tag of a container. -/
def declaredLength : List UInt8 → Option Nat
  | [] => none
  | _ :: input => (varintGet input).map Prod.fst

variable {B : Build} {im : Image} {p : BcbPrior} {c c' : BcbCodec} {luts : Bool} {al : Alloc}
  {input : List UInt8} {cap : Nat} {out out' : Buffer} {r : Ret}

theorem Framed.unchanged (s : BcbStatus) : Framed cap out (.error s) out :=
  ⟨fun _ _ => rfl, fun n hn => by cases hn⟩

theorem Buffer.write_of_le {off i : Nat} {l : List UInt8} (h : off + l.length ≤ i) :
    out.write off l i = out i := if_neg (by omega)

theorem compressCore_framed {crcOn idOn : Bool}
    (h : compressCore B luts p al crcOn idOn input cap out c = .ok (r, out', c')) :
    Framed cap out r out' := by
  obtain ⟨⟨o, c1⟩, -, h⟩ := bind_eq_ok.1 h
  cases o with
  | none =>
    cases h
    exact .unchanged _
  | some comp =>
    simp only at h
    split_ifs at h with hcap
    · cases h
      exact .unchanged _
    · cases h
      refine ⟨fun s hs => (by cases hs), fun n hn => ?_⟩
      cases hn
      refine ⟨Nat.le_of_not_lt hcap, fun i hi => ?_⟩
      rw [Buffer.write_of_le hi, Buffer.write_of_le (by omega)]

theorem parseFrame_declared {id : List UInt8} {f : Frame} (h : parseFrame id input = .ok f) :
    declaredLength input = some f.orig := by
  cases input with
  | nil => cases h
  | cons tag input =>
    rw [parseFrame] at h
    rw [declaredLength]
    cases hget : varintGet input with
    | none =>
      rw [hget] at h
      cases h
    | some x =>
      simp only [hget] at h
      cases hcrc : takeCrc tag (input.drop x.2) with
      | error s =>
        rw [hcrc] at h
        cases h
      | ok y =>
        rw [hcrc] at h
        change (takeId id tag y.2 >>= _) = _ at h
        cases hid : takeId id tag y.2 with
        | error s =>
          rw [hid] at h
          cases h
        | ok payload =>
          rw [hid] at h
          cases h
          rfl

theorem decompressCore_framed
    (h : decompressCore B luts p al input cap out c = .ok (r, out', c')) :
    Framed cap out r out' ∧ ∀ n, r = .ok n → declaredLength input = some n := by
  unfold decompressCore at h
  cases hf : parseFrame p.id input with
  | error s =>
    rw [hf] at h
    cases h
    exact ⟨.unchanged _, fun n hn => (by cases hn)⟩
  | ok f =>
    have horig := parseFrame_declared hf
    simp only [hf] at h
    split_ifs at h with hcap h0
    · cases h
      exact ⟨.unchanged _, fun n hn => (by cases hn)⟩
    · cases h
      refine ⟨⟨fun s hs => (by cases hs), fun n hn => ?_⟩, fun n hn => ?_⟩
      · cases hn
        exact ⟨Nat.zero_le _, fun _ _ => rfl⟩
      · cases hn
        rw [horig, h0]
    · obtain ⟨⟨o, c1⟩, hdec, h⟩ := bind_eq_ok.1 h
      cases o with
      | none =>
        cases h
        exact ⟨.unchanged _, fun n hn => (by cases hn)⟩
      | some dec =>
        have hlen := decodePayload_length hdec
        simp only at h
        split_ifs at h
        · cases h
          exact ⟨.unchanged _, fun n hn => (by cases hn)⟩
        · cases h
          refine ⟨⟨fun s hs => (by cases hs), fun n hn => ?_⟩, fun n hn => ?_⟩
          · cases hn
            exact ⟨Nat.le_of_not_lt hcap, fun i hi => Buffer.write_of_le (by omega)⟩
          · cases hn
            exact horig

theorem pos_of_strict {cum : Cum} (h : ∀ i < 256, cum i < cum (i + 1)) : cum 256 ≠ 0 :=
  (Nat.zero_lt_of_lt (h 255 (by norm_num))).ne'

section Returns

variable (hp : priorParse B im = .ok (some p)) (htab : TablesStrict B p)

include hp htab

theorem cecEncByte_returns (hc : Reachable B p c) (e : CecEncoder) (sym : UInt8) :
    ∃ e' c', cecEncByte (bcbCodecCecBt B true p) e c sym = .ok (e', c') ∧ Reachable B p c' := by
  obtain ⟨cum, c1, hdist, hstrict⟩ := htab hc
  have hc1 := hc.dist hdist
  obtain ⟨c2, htrain⟩ := codecTrain_total hp hc1.coherent sym
  obtain ⟨e1, hsym⟩ : ∃ e1, cecEncSym e (cum sym.toNat) (cum (sym.toNat + 1)) (cum 256) = .ok e1 :=
    ⟨_, if_neg (pos_of_strict hstrict)⟩
  refine ⟨e1, c2, ?_, hc1.train htrain⟩
  simp only [cecEncByte, bcbCodecCecBt, hdist, ok_bind, hsym, htrain]
  rfl

theorem cecDecByte_returns (hc : Reachable B p c) (d : CecDecoder) :
    ∃ b d' c', cecDecByte (bcbCodecCecBt B true p) d c = .ok (b, d', c') ∧ Reachable B p c' := by
  obtain ⟨cum, c1, hdist, hstrict⟩ := htab hc
  have hc1 := hc.dist hdist
  obtain ⟨⟨b, d1⟩, hnarrow⟩ : ∃ x, cecDecNarrow d cum = .ok x :=
    ⟨_, if_neg (pos_of_strict hstrict)⟩
  obtain ⟨c2, htrain⟩ := codecTrain_total hp hc1.coherent b
  refine ⟨b, cecRenormDec d1, c2, ?_, hc1.train htrain⟩
  simp only [cecDecByte, bcbCodecCecBt, hdist, ok_bind, hnarrow, htrain]
  rfl

theorem cecEncLoop_returns (hc : Reachable B p c) (msg : List UInt8) (e : CecEncoder) :
    ∃ e' c', cecEncLoop (bcbCodecCecBt B true p) (encXform p) msg e c = .ok (e', c') := by
  induction msg generalizing c e with
  | nil => exact ⟨e, c, rfl⟩
  | cons b msg ih =>
    obtain ⟨sym, hsym⟩ := encXform_total hp c b
    obtain ⟨e1, c1, hbyte, hc1⟩ := cecEncByte_returns hp htab hc e sym
    obtain ⟨e', c', hloop⟩ := ih hc1 e1
    refine ⟨e', c', ?_⟩
    simp only [cecEncLoop, hsym, hbyte, hloop, ok_bind]

theorem cecDecLoop_returns (hc : Reachable B p c) (post : BcbCodec → UInt8 → UInt8) (n : Nat)
    (d : CecDecoder) :
    ∃ x, cecDecLoop (bcbCodecCecBt B true p) post n d c = .ok x := by
  induction n generalizing c d with
  | zero => exact ⟨_, rfl⟩
  | succ n ih =>
    obtain ⟨b, d1, c1, hbyte, hc1⟩ := cecDecByte_returns hp htab hc d
    obtain ⟨x, hloop⟩ := ih hc1 d1
    refine ⟨(post c1 b :: x.1, x.2.1, x.2.2), ?_⟩
    simp only [cecDecLoop, hbyte, hloop, ok_bind]
    rfl

theorem compressCore_returns (hc : Reachable B p c) (al : Alloc) (crcOn idOn : Bool)
    (input : List UInt8) (cap : Nat) (out : Buffer) :
    ∃ x, compressCore B true p al crcOn idOn input cap out c = .ok x := by
  have hpayload : ∃ x, encodePayload B true p al input c = .ok x := by
    obtain ⟨c1, hset⟩ := setSdelta_total hp al.precompute (structural p) (bcbCodecBegin B p c)
    obtain ⟨e', c', hloop⟩ :=
      cecEncLoop_returns hp htab (hc.begin.setSdelta hset) input cecEncNew
    simp only [encodePayload, hset, ok_bind]
    split_ifs
    · exact ⟨_, rfl⟩
    · rw [hloop]
      exact ⟨_, rfl⟩
  obtain ⟨⟨o, c1⟩, hx⟩ := hpayload
  simp only [compressCore, hx, ok_bind]
  cases o with
  | none => exact ⟨_, rfl⟩
  | some comp =>
    dsimp only
    split_ifs
    · exact ⟨_, rfl⟩
    · exact ⟨_, rfl⟩

theorem decompressCore_returns (hc : Reachable B p c) (al : Alloc) (input : List UInt8)
    (cap : Nat) (out : Buffer) : ∃ x, decompressCore B true p al input cap out c = .ok x := by
  have hpayload : ∀ f, ∃ x, decodePayload B true p al f c = .ok x := by
    intro f
    obtain ⟨c1, hset⟩ := setSdelta_total hp al.precompute
      (f.tag &&& tagSdelta ≠ 0 && structural p) (bcbCodecBegin B p c)
    have hloop := fun post d =>
      cecDecLoop_returns hp htab (hc.begin.setSdelta hset) post f.orig d
    simp only [decodePayload, hset, ok_bind]
    split_ifs
    · exact ⟨_, rfl⟩
    · obtain ⟨x, hx⟩ := hloop (fun c _ => c.scLast) (cecDecNew f.payload)
      rw [hx]
      exact ⟨_, rfl⟩
    · obtain ⟨x, hx⟩ := hloop (fun _ b => b) (cecDecNew f.payload)
      rw [cecDecompress, hx]
      exact ⟨_, rfl⟩
  unfold decompressCore
  cases parseFrame p.id input with
  | error s => exact ⟨_, rfl⟩
  | ok f =>
    obtain ⟨⟨o, c1⟩, hx⟩ := hpayload f
    simp only [hx, ok_bind]
    split_ifs
    · exact ⟨_, rfl⟩
    · exact ⟨_, rfl⟩
    · cases o with
      | none => exact ⟨_, rfl⟩
      | some dec =>
        dsimp only
        split_ifs
        · exact ⟨_, rfl⟩
        · exact ⟨_, rfl⟩

end Returns

/-- Both calls return, whatever the input and whichever allocations fail; an error leaves the
buffer untouched, and a length is kept to. -/
theorem calls_framed (hp : priorParse B im = .ok (some p)) (htab : TablesStrict B p)
    {enc : BcbEncoder} {dec : BcbDecoder} (henc : Reachable B p enc.c)
    (hdec : Reachable B p dec.c) (al : Alloc) (input : List UInt8) (cap : Nat) (out : Buffer) :
    (∃ r out' enc', bcbEncode B true p al enc input cap out = .ok (r, out', enc') ∧
      Framed cap out r out') ∧
    ∃ r out' dec', bcbDecode B true p al dec input cap out = .ok (r, out', dec') ∧
      Framed cap out r out' ∧ ∀ n, r = .ok n → declaredLength input = some n := by
  constructor
  · obtain ⟨⟨r, out', c'⟩, h⟩ :=
      compressCore_returns hp htab henc al enc.crcOn enc.idOn input cap out
    refine ⟨r, out', { enc with c := c' }, ?_, compressCore_framed h⟩
    rw [bcbEncode, h]
    rfl
  · obtain ⟨⟨r, out', c'⟩, h⟩ := decompressCore_returns hp htab hdec al input cap out
    refine ⟨r, out', { dec with c := c' }, ?_, decompressCore_framed h⟩
    rw [bcbDecode, h]
    rfl

theorem uniformPrior_strict : TablesStrict .plain uniformPrior := by
  intro c hc
  have hs : structural uniformPrior = true := structural_schemaPrior 0 fun _ => 64
  obtain ⟨cum, hcum⟩ := structuralDist_ok (priorParse_schemaImage 0 fun _ => 64) hs hc.coherent
  have hdist : codecDist .plain true uniformPrior rcScale c = .ok (cum, c) := by
    rw [codecDist, if_pos hs, uniformPrior, hcum]
    rfl
  exact ⟨cum, c, hdist, (uniformPrior_codable hc hdist).strict⟩

theorem calls_framed_uniform :
    (∃ r out' enc', bcbEncode .plain true uniformPrior ⟨true, false, true⟩
        (bcbEncoderNew .plain uniformPrior true) [7, 0, 2] 5 (fun _ => 9) = .ok (r, out', enc') ∧
      Framed 5 (fun _ => 9) r out') ∧
    ∃ r out' dec', bcbDecode .plain true uniformPrior ⟨true, false, true⟩
        (bcbDecoderNew .plain uniformPrior false) [7, 0, 2] 5 (fun _ => 9) = .ok (r, out', dec') ∧
      Framed 5 (fun _ => 9) r out' ∧ ∀ n, r = .ok n → declaredLength [7, 0, 2] = some n :=
  calls_framed (priorParse_schemaImage 0 fun _ => 64) uniformPrior_strict (.new true) (.new false)
    ⟨true, false, true⟩ [7, 0, 2] 5 fun _ => 9

end Bcb.Api
