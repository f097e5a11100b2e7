import Bcb.Api.RoundTrip
import Bcb.Codec.Memory

namespace Bcb.Api

open RangeCoder Bt Prior Codec

variable {B : Build} {im : Image} {p : BcbPrior} {c : BcbCodec}

theorem throws_cecEncSym (e : CecEncoder) (cl ch tot : Nat) :
    Throws Arithmetic (cecEncSym e cl ch tot) := by
  unfold cecEncSym
  split_ifs
  · exact .throw rfl
  · exact .ok _

theorem throws_cecDecNarrow (d : CecDecoder) (cum : Cum) :
    Throws Arithmetic (cecDecNarrow d cum) := by
  simp only [cecDecNarrow]
  split_ifs
  · exact .throw rfl
  · exact .ok _

section Calls

variable (hp : priorParse B im = .ok (some p))

include hp

theorem encXform_total (c : BcbCodec) (b : UInt8) : ∃ sym, encXform p c b = .ok sym := by
  unfold encXform
  split_ifs
  · exact bcbCodecEncXform_total hp b
  · exact ⟨b, rfl⟩

theorem setSdelta_total (al on : Bool) (c : BcbCodec) :
    ∃ c', bcbCodecSetSdelta B p al on c = .ok c' :=
  bcbCodecSetSdelta_total (fun h => priorParse_schema hp h) al on c

variable (hslots : p.snap.ctxNslots ≤ 2 ^ 32)

include hslots

theorem cecEncByte_spec (hc : Reachable B p c) (e : CecEncoder) (sym : UInt8) :
    Throws Arithmetic (cecEncByte (bcbCodecCecBt B true p) e c sym) ∧
      ∀ e' c', cecEncByte (bcbCodecCecBt B true p) e c sym = .ok (e', c') → Reachable B p c' := by
  constructor
  · apply (throws_codecDist hp hslots hc).bind
    rintro ⟨cum, c1⟩ hdist
    apply (throws_cecEncSym e _ _ _).bind
    intro e1 _
    have htrain : Throws Arithmetic (codecTrain p sym c1) :=
      .of_ok (codecTrain_total hp (hc.dist hdist).coherent sym)
    exact htrain.bind fun c2 _ => .ok _
  · intro e' c' h
    obtain ⟨⟨cum, c1⟩, hdist, h⟩ := bind_eq_ok.1 h
    obtain ⟨e1, -, h⟩ := bind_eq_ok.1 h
    obtain ⟨c2, htrain, h⟩ := bind_eq_ok.1 h
    cases h
    exact (hc.dist hdist).train htrain

theorem cecDecByte_spec (hc : Reachable B p c) (d : CecDecoder) :
    Throws Arithmetic (cecDecByte (bcbCodecCecBt B true p) d c) ∧
      ∀ b d' c', cecDecByte (bcbCodecCecBt B true p) d c = .ok (b, d', c') → Reachable B p c' := by
  constructor
  · apply (throws_codecDist hp hslots hc).bind
    rintro ⟨cum, c1⟩ hdist
    apply (throws_cecDecNarrow d cum).bind
    rintro ⟨b, d1⟩ _
    have htrain : Throws Arithmetic (codecTrain p b c1) :=
      .of_ok (codecTrain_total hp (hc.dist hdist).coherent b)
    exact htrain.bind fun c2 _ => .ok _
  · intro b d' c' h
    obtain ⟨⟨cum, c1⟩, hdist, h⟩ := bind_eq_ok.1 h
    obtain ⟨⟨b1, d1⟩, -, h⟩ := bind_eq_ok.1 h
    obtain ⟨c2, htrain, h⟩ := bind_eq_ok.1 h
    cases h
    exact (hc.dist hdist).train htrain

theorem throws_cecEncLoop (hc : Reachable B p c) (msg : List UInt8) (e : CecEncoder) :
    Throws Arithmetic (cecEncLoop (bcbCodecCecBt B true p) (encXform p) msg e c) := by
  induction msg generalizing c e with
  | nil => exact .ok _
  | cons b msg ih =>
    have hsym : Throws Arithmetic (encXform p c b) := .of_ok (encXform_total hp c b)
    apply hsym.bind
    intro sym _
    obtain ⟨hthrows, hreach⟩ := cecEncByte_spec hp hslots hc e sym
    apply hthrows.bind
    rintro ⟨e', c'⟩ hbyte
    exact ih (hreach e' c' hbyte) e'

theorem throws_cecDecLoop (hc : Reachable B p c) (post : BcbCodec → UInt8 → UInt8) (n : Nat)
    (d : CecDecoder) : Throws Arithmetic (cecDecLoop (bcbCodecCecBt B true p) post n d c) := by
  induction n generalizing c d with
  | zero => exact .ok _
  | succ n ih =>
    obtain ⟨hthrows, hreach⟩ := cecDecByte_spec hp hslots hc d
    apply hthrows.bind
    rintro ⟨b, d', c'⟩ hbyte
    apply (ih (hreach b d' c' hbyte) d').bind
    exact fun x _ => .ok _

theorem throws_compressCore (hc : Reachable B p c) (al : Alloc) (crcOn idOn : Bool)
    (msg : List UInt8) (cap : Nat) (out : Buffer) :
    Throws Arithmetic (compressCore B true p al crcOn idOn msg cap out c) := by
  have hpayload : Throws Arithmetic (encodePayload B true p al msg c) := by
    obtain ⟨c1, hset⟩ := setSdelta_total hp al.precompute (structural p) (bcbCodecBegin B p c)
    simp only [encodePayload, hset, ok_bind]
    split_ifs
    · exact .ok _
    · exact (throws_cecEncLoop hp hslots (hc.begin.setSdelta hset) msg cecEncNew).bind
        fun _ _ => .ok _
  apply hpayload.bind
  rintro ⟨o, c1⟩ _
  cases o with
  | none => exact .ok _
  | some comp =>
    dsimp only
    split_ifs
    · exact .ok _
    · exact .ok _

theorem throws_decompressCore (hc : Reachable B p c) (al : Alloc) (input : List UInt8) (cap : Nat)
    (out : Buffer) : Throws Arithmetic (decompressCore B true p al input cap out c) := by
  have hpayload : ∀ f, Throws Arithmetic (decodePayload B true p al f c) := by
    intro f
    obtain ⟨c1, hset⟩ := setSdelta_total hp al.precompute
      (f.tag &&& tagSdelta ≠ 0 && structural p) (bcbCodecBegin B p c)
    have hloop := fun post d =>
      throws_cecDecLoop hp hslots (hc.begin.setSdelta hset) post f.orig d
    simp only [decodePayload, hset, ok_bind]
    split_ifs
    · exact .ok _
    · exact (hloop _ _).bind fun _ _ => .ok _
    · exact ((hloop _ _).bind fun _ _ => .ok _).bind fun _ _ => .ok _
  unfold decompressCore
  cases parseFrame p.id input with
  | error s => exact .ok _
  | ok f =>
    dsimp only
    split_ifs
    · exact .ok _
    · exact .ok _
    · apply (hpayload f).bind
      rintro ⟨o, c1⟩ _
      cases o with
      | none => exact .ok _
      | some dec =>
        dsimp only
        split_ifs
        · exact .ok _
        · exact .ok _

end Calls

/-- Over an accepted image every lookup returns, and neither a call on a codec nor a message
pushed through one reads outside the image or loops. -/
theorem reads_inside (hp : priorParse B im = .ok (some p)) (hslots : p.snap.ctxNslots ≤ 2 ^ 32) :
    (∀ (w : Window) (ctx : List UInt8), (∃ b, bloomChkRd B p.snap.bloom ctx = .ok b) ∧
      ∃ o, ctxFindRd (reader p w) ctx (fnv ctx) = .ok o ∧
        ∀ e, o = some e → ∃ chain, nextBytes (reader p w) e = .ok chain) ∧
    (∀ ctx, ∃ o, lmLookup p.toLandmarks ctx = .ok o) ∧
    (∀ {c : BcbCodec}, Reachable B p c → Throws Arithmetic (codecDist B true p rcScale c) ∧
      (∀ b, ∃ c', codecTrain p b c = .ok c') ∧ (∀ b, ∃ sym, encXform p c b = .ok sym)) ∧
    (∀ {c : BcbCodec}, Reachable B p c → ∀ al crcOn idOn msg cap out,
      Throws Arithmetic (compressCore B true p al crcOn idOn msg cap out c)) ∧
    (∀ {c : BcbCodec}, Reachable B p c → ∀ al input cap out,
      Throws Arithmetic (decompressCore B true p al input cap out c)) := by
  refine ⟨?_, ?_, ?_, ?_, ?_⟩
  · intro w ctx
    have hsound := reader_sound hp hslots w
    obtain ⟨o, ho, hchain⟩ := ctxFindRd_ok hsound ctx (fnv ctx)
    exact ⟨bloomChkRd_ok hsound.bloom ctx, o, ho, fun e he => nextBytes_ok (hchain e he)⟩
  · intro ctx
    obtain ⟨o, ho, -⟩ := lmLookup_ok hp ctx
    exact ⟨o, ho⟩
  · intro c hc
    exact ⟨throws_codecDist hp hslots hc, codecTrain_total hp hc.coherent, encXform_total hp c⟩
  · intro c hc
    exact throws_compressCore hp hslots hc
  · intro c hc
    exact throws_decompressCore hp hslots hc

theorem reads_inside_uniform :
    (∀ (w : Window) (ctx : List UInt8),
      (∃ b, bloomChkRd .plain uniformPrior.snap.bloom ctx = .ok b) ∧
      ∃ o, ctxFindRd (reader uniformPrior w) ctx (fnv ctx) = .ok o ∧
        ∀ e, o = some e → ∃ chain, nextBytes (reader uniformPrior w) e = .ok chain) ∧
    (∀ ctx, ∃ o, lmLookup uniformPrior.toLandmarks ctx = .ok o) ∧
    (∀ {c : BcbCodec}, Reachable .plain uniformPrior c →
      Throws Arithmetic (codecDist .plain true uniformPrior rcScale c) ∧
      (∀ b, ∃ c', codecTrain uniformPrior b c = .ok c') ∧
      (∀ b, ∃ sym, encXform uniformPrior c b = .ok sym)) ∧
    (∀ {c : BcbCodec}, Reachable .plain uniformPrior c → ∀ al crcOn idOn msg cap out,
      Throws Arithmetic (compressCore .plain true uniformPrior al crcOn idOn msg cap out c)) ∧
    (∀ {c : BcbCodec}, Reachable .plain uniformPrior c → ∀ al input cap out,
      Throws Arithmetic (decompressCore .plain true uniformPrior al input cap out c)) :=
  reads_inside (priorParse_schemaImage 0 fun _ => 64) (by decide)

end Bcb.Api
