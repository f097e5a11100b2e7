import Bcb.Api.RoundTrip
import Bcb.Codec.Global

namespace Bcb.Api

open RangeCoder Bt Prior Codec

/-- The container of a payload that was coded by rotated tables. -/
def legacyContainer (p : BcbPrior) (crcOn idOn : Bool) (msg comp : List UInt8) : List UInt8 :=
  containerHeader crcOn idOn false p.id msg ++ comp

variable {B : Build} {im : Image} {p : BcbPrior} {msg comp : List UInt8}

theorem bcbDecompress_legacy (hp : priorParse B im = .ok (some p)) (hcod : TablesCodable B p)
    (hmsg : msg.length < 2 ^ 28) {alloc : Bool}
    (h : Global.codecPayload B p alloc msg = .ok comp) (crcOn idOn cacheAlloc : Bool) {al : Alloc}
    (hcoder : al.coder = true) (houtput : al.output = true) {cap : Nat} (hcap : msg.length ≤ cap)
    (buf : Buffer) :
    ∃ buf', bcbDecompress B true p cacheAlloc al (legacyContainer p crcOn idOn msg comp) cap buf =
      .ok (.ok msg.length, buf') ∧ buf'.read msg.length = msg := by
  have hframe := parseFrame_header crcOn idOn false (priorParse_id hp) msg (by omega) comp
  simp only [bcbDecompress, decompressCore, legacyContainer, hframe,
    if_neg (Nat.not_lt_of_le hcap)]
  by_cases h0 : msg.length = 0
  · obtain rfl := List.length_eq_zero_iff.1 h0
    exact ⟨buf, rfl, rfl⟩
  · obtain ⟨⟨comp', c1⟩, hrun, h⟩ := bind_eq_ok.1 h
    obtain rfl := Except.ok.inj h
    obtain ⟨⟨e, c2⟩, hloop, hrun⟩ := bind_eq_ok.1 hrun
    obtain ⟨rfl, rfl⟩ := Prod.mk.inj (Except.ok.inj hrun)
    obtain ⟨d1, hset⟩ := bcbCodecSetSdelta_total (B := B) (fun h => priorParse_schema hp h)
      al.precompute false (bcbCodecBegin B p (bcbCodecNew B p cacheAlloc))
    have hnew : Reachable B p (bcbCodecNew B p cacheAlloc) := .new cacheAlloc
    have htwin : Twin B p (bcbCodecNew B p alloc) d1 := by
      refine ⟨.new alloc, hnew.begin.setSdelta hset, ?_⟩
      rw [bare_start hnew.coherent hset, Global.bare_new]
    obtain ⟨-, d', -, hdec⟩ := (lockstep_plain hcod).roundTrip htwin hmsg hloop
    obtain ⟨dec, hdec⟩ := hdec []
    rw [List.append_nil] at hdec
    have htag : (decide (tagOf crcOn idOn false &&& tagSdelta ≠ 0) && structural p) = false := by
      rw [(tagOf_bits crcOn idOn false).2, Bool.false_and]
    have hcrc : ¬ ((if crcOn then some (crc32 msg) else none).any
        fun want => decide (crc32 msg ≠ want)) = true := by
      cases crcOn <;> simp
    refine ⟨buf.write 0 msg, ?_, buf.read_write msg⟩
    simp only [if_neg h0, decodePayload, htag, hset, hcoder, houtput, Bool.and_self, Bool.not_true,
      Bool.false_eq_true, if_false, cecDecompress, ok_bind, hdec]
    change (if _ then _ else _ : Outcome (Ret × Buffer × BcbCodec)) >>= _ = _
    rw [if_neg hcrc]
    rfl

/-- The global path and the codec path write the same stream, and the shipped decoder reads
it. -/
theorem legacy_stream (hp : priorParse B im = .ok (some p)) (g : Global.Globals) :
    (∀ alloc msg, Global.payload B p msg g = Global.codecPayload B p alloc msg) ∧
      (TablesCodable B p → ∀ msg comp, msg.length < 2 ^ 28 →
        Global.payload B p msg g = .ok comp → ∀ (crcOn idOn cacheAlloc : Bool) (al : Alloc),
          al.coder = true → al.output = true → ∀ cap, msg.length ≤ cap → ∀ buf, ∃ buf',
            bcbDecompress B true p cacheAlloc al (legacyContainer p crcOn idOn msg comp) cap buf =
              .ok (.ok msg.length, buf') ∧ buf'.read msg.length = msg) := by
  refine ⟨fun alloc msg => Global.payload_eq hp alloc msg g, ?_⟩
  intro hcod msg comp hmsg hcomp crcOn idOn cacheAlloc al hcoder houtput cap hcap buf
  rw [Global.payload_eq hp true msg g] at hcomp
  exact bcbDecompress_legacy hp hcod hmsg hcomp crcOn idOn cacheAlloc hcoder houtput hcap buf

/-- Globals before anything was attached. -/
def noGlobals : Global.Globals where
  rd := {
    pool := fun _ => throw .oob
    ctxPool := fun _ => throw .oob
    ctxSlot := fun _ => throw .oob
    bloom := fun _ => throw .oob
    ctxMask := 0
    window := .empty }
  scPos := 0
  scPrev := fun _ => 0
  scCur := fun _ => 0

theorem legacy_stream_uniform :
    ∃ comp, Global.payload .plain uniformPrior [7, 255, 7] noGlobals = .ok comp ∧
      ∃ buf', bcbDecompress .plain true uniformPrior true ⟨true, true, true⟩
          (legacyContainer uniformPrior true true [7, 255, 7] comp) 3 (fun _ => 0) =
          .ok (.ok 3, buf') ∧ buf'.read 3 = [7, 255, 7] := by
  obtain ⟨comp, hcomp⟩ : ∃ comp, Global.payload .plain uniformPrior [7, 255, 7] noGlobals =
      .ok comp := by
    apply exists_ok_of_map (f := List.length) (b := 4)
    decide +kernel
  refine ⟨comp, hcomp, ?_⟩
  exact (legacy_stream (priorParse_schemaImage 0 _) noGlobals).2 uniformPrior_codable [7, 255, 7]
    comp (by decide) hcomp true true true ⟨true, true, true⟩ rfl rfl 3 le_rfl fun _ => 0

theorem decodePayload_legacy {luts : Bool} {al : Alloc} {f : Frame} {c c' : BcbCodec}
    {dec : List UInt8} (htag : f.tag &&& tagSdelta = 0)
    (h : decodePayload B luts p al f c = .ok (some dec, c')) :
    ∃ c1 d, bcbCodecSetSdelta B p al.precompute false (bcbCodecBegin B p c) = .ok c1 ∧
      cecDecLoop (bcbCodecCecBt B luts p) (fun _ b => b) f.orig (cecDecNew f.payload) c1 =
        .ok (dec, d, c') := by
  have hsd : (decide (f.tag &&& tagSdelta ≠ 0) && structural p) = false := by
    rw [htag]
    rfl
  simp only [decodePayload, hsd, Bool.false_eq_true, if_false] at h
  obtain ⟨c1, hset, h⟩ := bind_eq_ok.1 h
  split_ifs at h
  · cases h
  · obtain ⟨⟨dec', c2⟩, hdecomp, h⟩ := bind_eq_ok.1 h
    obtain ⟨hdec, rfl⟩ := Prod.mk.inj (Except.ok.inj h)
    obtain rfl := Option.some.inj hdec
    obtain ⟨⟨dec'', d, c3⟩, hloop, hdecomp⟩ := bind_eq_ok.1 hdecomp
    obtain ⟨rfl, rfl⟩ := Prod.mk.inj (Except.ok.inj hdecomp)
    exact ⟨c1, d, hset, hloop⟩

/-! The 32-bit count of pending bits bounds the length of a message: a byte whose interval lies
across the middle leaves nothing but 13 more of them. -/

/-- Byte 1 has the two widths in the middle of the scale. -/
def middleRow (b : UInt8) : UInt16 :=
  if b = 0 then 8191 else if b = 1 then 2 else if b = 2 then 7938 else 1

def middlePrior : BcbPrior := schemaPrior 0 middleRow

def middleCum : Cum := rowCum rcScale fun b => (middleRow b).toNat

theorem middlePrior_codable : TablesCodable .plain middlePrior := by
  apply tablesCodable_schemaPrior
  intro b
  unfold middleRow
  split_ifs <;> decide

theorem middleCum_bounds : middleCum 1 = 8191 ∧ middleCum 2 = 8193 ∧ middleCum 256 = 16384 := by
  decide +kernel

/-- An interval across the middle, no wider than half of all, becomes twice as wide. -/
theorem cecRenormEncTurn_middle {x : Nat} (h0 : 0 < x) (hx : x ≤ 2 ^ 30) (n : Nat) :
    cecRenormEncTurn ⟨2 ^ 31 - x, 2 ^ 31 + x - 1, n, 0, 0, []⟩ =
      some ⟨2 ^ 31 - 2 * x, 2 ^ 31 + 2 * x - 1, (n + 1) % 2 ^ 32, 0, 0, []⟩ := by
  have hlow : 2 * (2 ^ 31 - x - 2 ^ 30) % 2 ^ 32 = 2 ^ 31 - 2 * x := by omega
  have hhigh : (2 * (2 ^ 31 + x - 1 - 2 ^ 30) + 1) % 2 ^ 32 = 2 ^ 31 + 2 * x - 1 := by omega
  rw [cecRenormEncTurn, if_neg (by dsimp only; omega), if_neg (by dsimp only; omega),
    if_pos (by dsimp only; omega), cecShiftEnc]
  simp only [hlow, hhigh]

theorem cecRenormEnc_middle {j : Nat} (hj : j ≤ 31) (m n : Nat) :
    Lib.Loop.run cecRenormEncTurn (j + m)
      ⟨2 ^ 31 - 2 ^ (31 - j), 2 ^ 31 + 2 ^ (31 - j) - 1, n % 2 ^ 32, 0, 0, []⟩ =
      ⟨0, 2 ^ 32 - 1, (n + j) % 2 ^ 32, 0, 0, []⟩ := by
  induction j generalizing n with
  | zero => exact Lib.Loop.run_none rfl _
  | succ j ih =>
    have hwide : 2 * 2 ^ (31 - (j + 1)) = 2 ^ (31 - j) := by
      rw [← pow_succ']
      congr 1
      omega
    have hle : 2 ^ (31 - (j + 1)) ≤ 2 ^ 30 := Nat.pow_le_pow_right (by decide) (by omega)
    have hturn := cecRenormEncTurn_middle (Nat.two_pow_pos (31 - (j + 1))) hle (n % 2 ^ 32)
    rw [hwide, Nat.mod_add_mod] at hturn
    rw [Nat.add_right_comm, Lib.Loop.run_some hturn, ih (by omega), Nat.add_right_comm, Nat.add_assoc]

theorem cecEncSym_middle (n : Nat) :
    cecEncSym ⟨0, 2 ^ 32 - 1, n % 2 ^ 32, 0, 0, []⟩ 8191 8193 16384 =
      .ok ⟨0, 2 ^ 32 - 1, (n + 13) % 2 ^ 32, 0, 0, []⟩ := by
  have hnarrow : cecNarrow 0 (2 ^ 32 - 1) 8191 8193 16384 =
      (2 ^ 31 - 2 ^ (31 - 13), 2 ^ 31 + 2 ^ (31 - 13) - 1) := by decide
  rw [cecEncSym, if_neg (by decide)]
  simp only [hnarrow, cecRenormEnc]
  exact congrArg Except.ok (cecRenormEnc_middle (j := 13) (by decide) 19 n)

theorem structuralDist_middle {g : Global.Globals} (hg : g.scPos = 0) :
    Global.structuralDist middlePrior rcScale g = .ok (middleCum, g) := by
  have hwrap : wrapPos middlePrior g.scPos = 0 := by
    rw [hg]
    rfl
  have hcum : middlePrior.schemaCum 0 = .ok fun b => (middleRow b).toNat := schemaPrior_cum 0 _
  have hmode : middlePrior.schemaModes 0 = .ok 0 := schemaPrior_mode 0 _
  simp only [Global.structuralDist, hwrap, hcum, hmode, ok_bind, middleCum]
  rfl

theorem cecEncLoop_middle (n k : Nat) {g : Global.Globals} (hg : g.scPos = 0) :
    ∃ g', cecEncLoop (Global.cecBt .plain true middlePrior) (fun _ b => pure b)
      (List.replicate n 1) ⟨0, 2 ^ 32 - 1, k % 2 ^ 32, 0, 0, []⟩ g =
        .ok (⟨0, 2 ^ 32 - 1, (k + 13 * n) % 2 ^ 32, 0, 0, []⟩, g') := by
  have hbt : Global.cecBt .plain true middlePrior =
      ⟨Global.structuralDist middlePrior, Global.structuralTrain middlePrior⟩ :=
    if_pos (structural_schemaPrior 0 _)
  induction n generalizing k g with
  | zero => exact ⟨g, rfl⟩
  | succ n ih =>
    obtain ⟨h1, h2, h256⟩ := middleCum_bounds
    obtain ⟨g1, hg1, htrain⟩ : ∃ g1 : Global.Globals, g1.scPos = 0 ∧
        Global.structuralTrain middlePrior 1 g = .ok g1 := by
      have hend : middlePrior.schemaRec ≤ g.scPos + 1 := by
        rw [hg]
        exact le_rfl
      refine ⟨_, ?_, by rw [Global.structuralTrain]; simp only [if_pos hend]; rfl⟩
      rfl
    obtain ⟨g', hloop⟩ := ih (k + 13) hg1
    have hbyte : cecEncByte (Global.cecBt .plain true middlePrior)
        ⟨0, 2 ^ 32 - 1, k % 2 ^ 32, 0, 0, []⟩ g 1 =
        .ok (⟨0, 2 ^ 32 - 1, (k + 13) % 2 ^ 32, 0, 0, []⟩, g1) := by
      have h1' : (1 : UInt8).toNat = 1 := rfl
      rw [hbt]
      simp only [cecEncByte, structuralDist_middle hg, ok_bind, h1', h1, h2, h256,
        cecEncSym_middle, htrain]
      rfl
    refine ⟨g', ?_⟩
    have hpre : (pure 1 : Outcome UInt8) = .ok 1 := rfl
    have hcount : k + 13 * (n + 1) = k + 13 + 13 * n := by omega
    rw [List.replicate_succ, cecEncLoop, hpre, ok_bind, hbyte, ok_bind, hcount]
    exact hloop

/-- The count of 330382100 such bytes is 4 again. -/
theorem payload_middle (g : Global.Globals) :
    Global.payload .plain middlePrior (List.replicate 330382100 1) g = .ok [0x7C] := by
  have hbegin : Global.bcbPriorCecBt .plain middlePrior g = .ok (Global.bcbPriorMsgBegin g) :=
    if_pos (structural_schemaPrior 0 _)
  have hfinish : cecEncFinish ⟨0, 2 ^ 32 - 1, 4, 0, 0, []⟩ = [0x7C] := by decide +kernel
  obtain ⟨g', hloop⟩ := cecEncLoop_middle 330382100 0
    (g := Global.btV3ResetWindow (Global.bcbPriorMsgBegin g)) rfl
  have hpending : (0 + 13 * 330382100) % 2 ^ 32 = 4 := by norm_num
  rw [hpending] at hloop
  have hrun : cecCompress (Global.cecBt .plain true middlePrior)
      (Global.btV3ResetWindow (Global.bcbPriorMsgBegin g)) (List.replicate 330382100 1) =
      .ok ([0x7C], g') := by
    have hnew : cecEncNew = ⟨0, 2 ^ 32 - 1, 0 % 2 ^ 32, 0, 0, []⟩ := rfl
    rw [cecCompress, hnew, hloop, ok_bind]
    simp only [hfinish]
    rfl
  rw [Global.payload, hbegin, ok_bind, hrun]
  rfl

/-- The first byte that is decoded from it is not the first byte that was encoded. -/
theorem cecDecNarrow_middle {b : UInt8} {d : CecDecoder}
    (h : cecDecNarrow (cecDecNew [0x7C]) middleCum = .ok (b, d)) : b = 0 := by
  have heval : (cecDecNarrow (cecDecNew [0x7C]) middleCum).map (·.1) = .ok 0 := by
    decide +kernel
  rw [h] at heval
  exact Except.ok.inj heval

theorem cecDecLoop_middle {c c' : BcbCodec} {n : Nat} {dec : List UInt8} {d : CecDecoder}
    (hc : Coherent .plain middlePrior c) (hbare : bare c = start middlePrior false)
    (h : cecDecLoop (bcbCodecCecBt .plain true middlePrior) (fun _ b => b) (n + 1)
      (cecDecNew [0x7C]) c = .ok (dec, d, c')) : ∃ rest, dec = 0 :: rest := by
  have hs : structural middlePrior = true := structural_schemaPrior 0 _
  have hdist : codecDist .plain true middlePrior rcScale (bare c) = .ok (middleCum, bare c) := by
    have hcum : middlePrior.schemaCum 0 = .ok fun b => (middleRow b).toNat := schemaPrior_cum 0 _
    have hmode : middlePrior.schemaModes 0 = .ok 0 := schemaPrior_mode 0 _
    have hwrap : wrapPos middlePrior 0 = 0 := rfl
    simp only [hbare, start, codecDist, hs, if_true, structuralDist, Bool.true_and,
      Bool.false_eq_true, if_false, hwrap, hcum, hmode, ok_bind, middleCum]
    rfl
  obtain ⟨c1, hc1⟩ := codecDist_ok_of_bare hc hdist
  obtain ⟨⟨b, d1, c2⟩, hbyte, h⟩ := bind_eq_ok.1 h
  obtain ⟨⟨rest, d2, c3⟩, -, h⟩ := bind_eq_ok.1 h
  obtain ⟨rfl, -⟩ := Prod.mk.inj (Except.ok.inj h)
  obtain ⟨⟨cum, c4⟩, hrun, hbyte⟩ := bind_eq_ok.1 hbyte
  obtain ⟨⟨b', d3⟩, hnarrow, hbyte⟩ := bind_eq_ok.1 hbyte
  obtain ⟨c5, -, hbyte⟩ := bind_eq_ok.1 hbyte
  obtain ⟨rfl, -⟩ := Prod.mk.inj (Except.ok.inj hbyte)
  obtain ⟨rfl, -⟩ := Prod.mk.inj (Except.ok.inj (hc1.symm.trans hrun))
  exact ⟨rest, by rw [cecDecNarrow_middle hnarrow]⟩

/-- What is decoded from the stream of 330382100 bytes is another message. -/
theorem legacy_stream_wraps :
    TablesCodable .plain middlePrior ∧ ∃ comp, (∀ g, Global.payload .plain middlePrior
        (List.replicate 330382100 1) g = .ok comp) ∧
      ¬ ∃ buf', bcbDecompress .plain true middlePrior true ⟨true, true, true⟩
          (legacyContainer middlePrior true false (List.replicate 330382100 1) comp) 330382100
          (fun _ => 0) = .ok (.ok 330382100, buf') ∧
        buf'.read 330382100 = List.replicate 330382100 1 := by
  refine ⟨middlePrior_codable, [0x7C], payload_middle, ?_⟩
  rintro ⟨buf', h, hread⟩
  have hlen : (List.replicate 330382100 (1 : UInt8)).length = 330382100 := List.length_replicate
  have hframe := parseFrame_header true false false
    (priorParse_id (priorParse_schemaImage 0 middleRow)) (List.replicate 330382100 1)
    (by rw [hlen]; norm_num) [0x7C]
  rw [hlen] at hframe
  obtain ⟨⟨r, out, c⟩, hcore, h⟩ := bind_eq_ok.1 h
  obtain ⟨rfl, rfl⟩ := Prod.mk.inj (Except.ok.inj h)
  obtain ⟨dec, hdec, -, rfl, -⟩ := decompressCore_ok hframe (by norm_num) hcore
  obtain ⟨c1, d, hset, hloop⟩ := decodePayload_legacy (by decide) hdec
  have hnew : Reachable .plain middlePrior (bcbCodecNew .plain middlePrior true) := .new true
  have hstart := bare_start hnew.coherent hset
  have hcoh := (hnew.begin.setSdelta hset).coherent
  obtain ⟨rest, rfl⟩ := cecDecLoop_middle (n := 330382099) hcoh hstart hloop
  have hfirst := congrArg List.head? hread
  rw [Buffer.read, List.head?_map, List.head?_range, List.head?_replicate, if_neg (by norm_num),
    if_neg (by norm_num)] at hfirst
  cases hfirst

end Bcb.Api
