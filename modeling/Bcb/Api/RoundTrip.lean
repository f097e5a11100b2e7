import Bcb.Api.Container
import Bcb.Codec.Rows

namespace Bcb.Api

open RangeCoder Prior Codec

variable {B : Build} {im : Image} {p : BcbPrior} {c c1 c' d : BcbCodec} {msg comp : List UInt8}

theorem encodePayload_some {al : Alloc}
    (h : encodePayload B true p al msg c = .ok (some comp, c')) :
    ∃ c1 e, bcbCodecSetSdelta B p al.precompute (structural p) (bcbCodecBegin B p c) = .ok c1 ∧
      cecEncLoop (bcbCodecCecBt B true p) (encXform p) msg cecEncNew c1 = .ok (e, c') ∧
      comp = cecEncFinish e := by
  obtain ⟨c1, hset, h⟩ := bind_eq_ok.1 h
  split_ifs at h
  · cases h
  · obtain ⟨⟨e, c2⟩, hloop, h⟩ := bind_eq_ok.1 h
    cases h
    exact ⟨c1, e, hset, hloop, rfl⟩

theorem compressCore_ok {al : Alloc} {crcOn idOn : Bool} {cap n : Nat} {out out' : Buffer}
    (h : compressCore B true p al crcOn idOn msg cap out c = .ok (.ok n, out', c')) :
    ∃ comp, encodePayload B true p al msg c = .ok (some comp, c') ∧ n ≤ cap ∧
      n = (containerHeader crcOn idOn (structural p) p.id msg).length + comp.length ∧
      out'.read n = containerHeader crcOn idOn (structural p) p.id msg ++ comp := by
  obtain ⟨⟨o, c1⟩, hpay, h⟩ := bind_eq_ok.1 h
  cases o with
  | none => cases h
  | some comp =>
    simp only at h
    split_ifs at h with hcap
    · cases h
    · cases h
      exact ⟨comp, hpay, Nat.le_of_not_lt hcap, rfl, Buffer.read_write_write out _ _⟩

/-- The byte delivered for a symbol, where the container's path is the prior's. -/
def decByte (p : BcbPrior) : BcbCodec → UInt8 → UInt8 :=
  if structural p then fun c _ => c.scLast else fun _ b => b

theorem encLoop_roundTrip (hp : p.schemaRec ≠ 0 → SchemaReadable p) (hcod : TablesCodable B p)
    (hmsg : msg.length < 2 ^ 28) (htwin : Twin B p c d) (hsd : c.sdelta = structural p)
    {e : CecEncoder}
    (hloop : cecEncLoop (bcbCodecCecBt B true p) (encXform p) msg cecEncNew c = .ok (e, c')) :
    (cecEncFinish e).length ≤ 2 * msg.length + 1 ∧ ∃ dec d',
      cecDecLoop (bcbCodecCecBt B true p) (decByte p) msg.length (cecDecNew (cecEncFinish e)) d =
        .ok (msg, dec, d') := by
  unfold encXform at hloop
  unfold decByte
  cases hs : structural p with
  | true =>
    rw [hs] at hsd hloop
    have hrec := (structural_rec_pos hs).1
    have L := lockstep_sdelta hcod hs (hp hrec.ne').pos
    obtain ⟨hlen, d', -, hdec⟩ := L.roundTrip ⟨htwin, hsd⟩ hmsg hloop
    obtain ⟨dec, hdec⟩ := hdec []
    rw [List.append_nil] at hdec
    exact ⟨hlen, dec, d', hdec⟩
  | false =>
    rw [hs] at hloop
    obtain ⟨hlen, d', -, hdec⟩ := (lockstep_plain hcod).roundTrip htwin hmsg hloop
    obtain ⟨dec, hdec⟩ := hdec []
    rw [List.append_nil] at hdec
    exact ⟨hlen, dec, d', hdec⟩

theorem start_twin {al alD on : Bool} {d1 : BcbCodec} (hc : Reachable B p c) (hd : Reachable B p d)
    (h : bcbCodecSetSdelta B p al on (bcbCodecBegin B p c) = .ok c1)
    (h' : bcbCodecSetSdelta B p alD on (bcbCodecBegin B p d) = .ok d1) :
    Twin B p c1 d1 ∧ c1.sdelta = (structural p && on) := by
  have hstart := bare_start hc.coherent h
  refine ⟨⟨hc.begin.setSdelta h, hd.begin.setSdelta h', ?_⟩, congrArg BcbCodec.sdelta hstart⟩
  rw [hstart, bare_start hd.coherent h']

theorem encodePayload_length (hp : p.schemaRec ≠ 0 → SchemaReadable p) (hcod : TablesCodable B p)
    (hc : Reachable B p c) (hmsg : msg.length < 2 ^ 28) {al : Alloc}
    (h : encodePayload B true p al msg c = .ok (some comp, c')) :
    comp.length ≤ 2 * msg.length + 1 := by
  obtain ⟨c1, e, hset, hloop, rfl⟩ := encodePayload_some h
  obtain ⟨htwin, hsd⟩ := start_twin hc hc hset hset
  rw [Bool.and_self] at hsd
  exact (encLoop_roundTrip hp hcod hmsg htwin hsd hloop).1

theorem decodePayload_encodePayload (hp : p.schemaRec ≠ 0 → SchemaReadable p)
    (hcod : TablesCodable B p) (hc : Reachable B p c) (hd : Reachable B p d)
    (hmsg : msg.length < 2 ^ 28) {al alD : Alloc} (hcoder : alD.coder = true)
    (houtput : alD.output = true)
    (h : encodePayload B true p al msg c = .ok (some comp, c')) {f : Frame}
    (htag : decide (f.tag &&& tagSdelta ≠ 0) = structural p) (horig : f.orig = msg.length)
    (hpay : f.payload = comp) :
    ∃ d', decodePayload B true p alD f d = .ok (some msg, d') := by
  obtain ⟨c1, e, hset, hloop, rfl⟩ := encodePayload_some h
  obtain ⟨d1, hsetD⟩ :=
    bcbCodecSetSdelta_total (B := B) hp alD.precompute (structural p) (bcbCodecBegin B p d)
  obtain ⟨htwin, hsd⟩ := start_twin hc hd hset hsetD
  rw [Bool.and_self] at hsd
  obtain ⟨-, dec, d', hdec⟩ := encLoop_roundTrip hp hcod hmsg htwin hsd hloop
  refine ⟨d', ?_⟩
  simp only [decodePayload, htag, Bool.and_self, hsetD, ok_bind, hcoder, houtput, Bool.not_true,
    Bool.false_eq_true, if_false, horig, hpay]
  unfold decByte at hdec
  cases hs : structural p with
  | true =>
    rw [hs] at hdec
    simp only [if_true] at hdec ⊢
    rw [hdec]
    rfl
  | false =>
    rw [hs] at hdec
    simp only [Bool.false_eq_true, if_false, cecDecompress] at hdec ⊢
    rw [hdec]
    rfl

theorem decompressCore_ok {luts : Bool} {al : Alloc} {input : List UInt8} {cap n : Nat}
    {out out' : Buffer} {f : Frame} (hf : parseFrame p.id input = .ok f) (h0 : f.orig ≠ 0)
    (h : decompressCore B luts p al input cap out c = .ok (.ok n, out', c')) :
    ∃ dec, decodePayload B luts p al f c = .ok (some dec, c') ∧ n = f.orig ∧
      out' = out.write 0 dec ∧ ¬ (f.want.any fun want => decide (crc32 dec ≠ want)) = true := by
  simp only [decompressCore, hf, if_neg h0] at h
  split_ifs at h
  · cases h
  · obtain ⟨⟨o, c1⟩, hdec, h⟩ := bind_eq_ok.1 h
    cases o with
    | none => cases h
    | some dec =>
      simp only at h
      split_ifs at h with hcrc
      · cases h
      · cases h
        exact ⟨dec, hdec, rfl, rfl, hcrc⟩

theorem decompressCore_compressCore (hp : priorParse B im = .ok (some p))
    (hcod : TablesCodable B p) (hc : Reachable B p c) (hd : Reachable B p d)
    (hmsg : msg.length < 2 ^ 28) {al alD : Alloc} (hcoder : alD.coder = true)
    (houtput : alD.output = true) {crcOn idOn : Bool} {cap cap' n : Nat} {out out' : Buffer}
    (h : compressCore B true p al crcOn idOn msg cap out c = .ok (.ok n, out', c'))
    (hcap : msg.length ≤ cap') (buf : Buffer) :
    ∃ buf' d', decompressCore B true p alD (out'.read n) cap' buf d =
        .ok (.ok msg.length, buf', d') ∧ buf'.read msg.length = msg ∧
        ∀ i, msg.length ≤ i → buf' i = buf i := by
  obtain ⟨comp, hpay, -, -, hread⟩ := compressCore_ok h
  have hframe := parseFrame_header crcOn idOn (structural p) (priorParse_id hp) msg (by omega) comp
  simp only [decompressCore, hread, hframe, if_neg (Nat.not_lt_of_le hcap)]
  by_cases h0 : msg.length = 0
  · obtain rfl := List.length_eq_zero_iff.1 h0
    exact ⟨buf, d, rfl, rfl, fun _ _ => rfl⟩
  · obtain ⟨d', hd'⟩ := decodePayload_encodePayload (fun h => priorParse_schema hp h) hcod hc hd
      hmsg hcoder houtput hpay (f := ⟨tagOf crcOn idOn (structural p), msg.length,
        if crcOn then some (crc32 msg) else none, comp⟩)
      (tagOf_bits crcOn idOn (structural p)).2 rfl rfl
    have hcrc : ¬ ((if crcOn then some (crc32 msg) else none).any
        fun want => decide (crc32 msg ≠ want)) = true := by
      cases crcOn <;> simp
    refine ⟨buf.write 0 msg, d', ?_, buf.read_write msg, fun i hi => if_neg (by omega)⟩
    simp only [if_neg h0, hd', ok_bind, if_neg hcrc]
    rfl

/-- The public API is lossless in every mode and for every setting of the flags. -/
theorem bcbDecode_bcbEncode (hp : priorParse B im = .ok (some p)) (hcod : TablesCodable B p)
    {enc enc' : BcbEncoder} {dec : BcbDecoder} (henc : Reachable B p enc.c)
    (hdec : Reachable B p dec.c) (hmsg : msg.length < 2 ^ 28) {al alD : Alloc}
    (hcoder : alD.coder = true) (houtput : alD.output = true) {cap cap' n : Nat}
    {out out' buf : Buffer}
    (h : bcbEncode B true p al enc msg cap out = .ok (.ok n, out', enc'))
    (hcap : msg.length ≤ cap') :
    ∃ buf' dec', bcbDecode B true p alD dec (out'.read n) cap' buf =
        .ok (.ok msg.length, buf', dec') ∧ buf'.read msg.length = msg ∧
        ∀ i, msg.length ≤ i → buf' i = buf i := by
  obtain ⟨⟨r, out1, c1⟩, hcore, hret⟩ := bind_eq_ok.1 h
  cases hret
  obtain ⟨buf', d', hrun, hread, hrest⟩ := decompressCore_compressCore hp hcod henc hdec hmsg
    hcoder houtput hcore hcap buf
  refine ⟨buf', ⟨d'⟩, ?_, hread, hrest⟩
  rw [bcbDecode, hrun]
  rfl

/-- A prior of equal widths. -/
def uniformPrior : BcbPrior := schemaPrior 0 fun _ => 64

theorem uniformPrior_codable : TablesCodable .plain uniformPrior :=
  tablesCodable_schemaPrior 0 fun _ => by decide

theorem compressCore_uniform : ∃ out c, compressCore .plain true uniformPrior ⟨true, true, true⟩
    true false [7, 255, 7] 70 (fun _ => 0) (bcbCodecNew .plain uniformPrior true) =
      .ok (.ok 10, out, c) := by
  have heval : (compressCore .plain true uniformPrior ⟨true, true, true⟩ true false [7, 255, 7] 70
      (fun _ => 0) (bcbCodecNew .plain uniformPrior true)).map (·.1) = .ok (.ok 10) := by
    decide +kernel
  obtain ⟨⟨r, out, c⟩, hrun, hr⟩ := map_eq_ok.1 heval
  exact ⟨out, c, by rw [hrun, ← hr]⟩

theorem bcbDecode_bcbEncode_uniform : ∃ out enc, bcbEncode .plain true uniformPrior
      ⟨true, true, true⟩ (bcbEncoderNew .plain uniformPrior true) [7, 255, 7] 70 (fun _ => 0) =
        .ok (.ok 10, out, enc) ∧
    ∃ buf dec, bcbDecode .plain true uniformPrior ⟨true, true, true⟩
        (bcbDecoderNew .plain uniformPrior false) (out.read 10) 3 (fun _ => 0) =
          .ok (.ok 3, buf, dec) ∧ buf.read 3 = [7, 255, 7] ∧ ∀ i, 3 ≤ i → buf i = 0 := by
  obtain ⟨out, c, hcore⟩ := compressCore_uniform
  have henc : bcbEncode .plain true uniformPrior ⟨true, true, true⟩
      (bcbEncoderNew .plain uniformPrior true) [7, 255, 7] 70 (fun _ => 0) =
        .ok (.ok 10, out, ⟨c, true, false⟩) := by
    rw [bcbEncode, bcbEncoderNew, hcore]
    rfl
  exact ⟨out, _, henc, bcbDecode_bcbEncode (priorParse_schemaImage 0 fun _ => 64)
    uniformPrior_codable (.new true) (.new false) (by decide) rfl rfl henc le_rfl⟩

/-- `bcb_compress_bound` is a bound on every container. -/
theorem bcbCompressBound_holds (hp : priorParse B im = .ok (some p)) (hcod : TablesCodable B p)
    (hc : Reachable B p c) (hmsg : msg.length < 2 ^ 28) {al : Alloc} {crcOn idOn : Bool}
    {cap : Nat} {out out' : Buffer} {r : Ret}
    (h : compressCore B true p al crcOn idOn msg cap out c = .ok (r, out', c')) :
    (∀ n, r = .ok n → n ≤ 2 * msg.length + 64) ∧
      (bcbCompressBound msg.length ≤ cap → r ≠ .error .outputTooSmall) := by
  obtain ⟨⟨o, c1⟩, hpay, h⟩ := bind_eq_ok.1 h
  cases o with
  | none =>
    cases h
    exact ⟨fun n hn => (nomatch hn), fun _ hr => (nomatch hr)⟩
  | some comp =>
    have hlen := encodePayload_length (fun h => priorParse_schema hp h) hcod hc hmsg hpay
    have hhdr := containerHeader_length crcOn idOn (structural p) msg (priorParse_id hp)
    simp only at h
    split_ifs at h with hcap
    · cases h
      refine ⟨fun n hn => (nomatch hn), fun hbound _ => ?_⟩
      rw [bcbCompressBound] at hbound
      omega
    · cases h
      refine ⟨fun n hn => ?_, fun _ hr => (nomatch hr)⟩
      cases hn
      omega

theorem bcbCompressBound_holds_uniform : ∃ out c, compressCore .plain true uniformPrior
      ⟨true, true, true⟩ true false [7, 255, 7] 70 (fun _ => 0)
      (bcbCodecNew .plain uniformPrior true) = .ok (.ok 10, out, c) ∧
    (∀ n, (.ok 10 : Ret) = .ok n → n ≤ 2 * 3 + 64) ∧
      (bcbCompressBound 3 ≤ 70 → (.ok 10 : Ret) ≠ .error .outputTooSmall) := by
  obtain ⟨out, c, hcore⟩ := compressCore_uniform
  exact ⟨out, c, hcore, bcbCompressBound_holds (priorParse_schemaImage 0 fun _ => 64)
    uniformPrior_codable (.new true) (by decide) hcore⟩

end Bcb.Api
