import Bcb.Api.Defs
import Bcb.RangeCoder.Simulation

namespace Bcb.Api

open RangeCoder Prior Codec

/-- A relation that lasts through a message, between a codec over `p` and one over `p'`. -/
structure InStep (B : Build) (p p' : BcbPrior) (R : BcbCodec → BcbCodec → Prop) : Prop where
  structural : structural p = structural p'
  id : p.id = p'.id
  alongside : Alongside (bcbCodecCecBt B true p) (bcbCodecCecBt B true p') R
  encXform : ∀ {c d : BcbCodec} (b : UInt8), R c d → encXform p c b = encXform p' d b
  /-- the byte behind the symbol that both have been trained with -/
  scLast : Codec.structural p = true → ∀ {c c' d d' : BcbCodec} {b : UInt8}, R c d →
    codecTrain p b c = .ok c' → codecTrain p' b d = .ok d' → c'.scLast = d'.scLast

/-- Both begin a message at the same place. -/
def Starts (B : Build) (p p' : BcbPrior) (R : BcbCodec → BcbCodec → Prop) (pre pre' : Bool)
    (c d : BcbCodec) : Prop :=
  ∀ on, Alike R (bcbCodecSetSdelta B p pre on (bcbCodecBegin B p c))
    (bcbCodecSetSdelta B p' pre' on (bcbCodecBegin B p' d))

namespace InStep

variable {B : Build} {p p' : BcbPrior} {R S : BcbCodec → BcbCodec → Prop} {al : Alloc} {pre : Bool}
  {c d : BcbCodec}

theorem encodePayload (h : InStep B p p' R) (hstart : Starts B p p' R al.precompute pre c d)
    (input : List UInt8) :
    Alike (fun x y => x.1 = y.1 ∧ R x.2 y.2) (encodePayload B true p al input c)
      (encodePayload B true p' { al with precompute := pre } input d) := by
  unfold Api.encodePayload
  rw [← h.structural]
  apply (hstart (Codec.structural p)).bind
  intro c1 d1 h1
  cases al.coder with
  | false => exact .ok ⟨rfl, h1⟩
  | true =>
    apply (h.alongside.encLoop _ (fun b hcd => h.encXform b hcd) input cecEncNew h1).bind
    rintro ⟨e, c2⟩ ⟨e', d2⟩ ⟨rfl, h2⟩
    exact .ok ⟨rfl, h2⟩

theorem compressCore (h : InStep B p p' R) (hstart : Starts B p p' R al.precompute pre c d)
    (crcOn idOn : Bool) (input : List UInt8) (cap : Nat) (out : Buffer) :
    Alike (fun x y => x.1 = y.1 ∧ x.2.1 = y.2.1 ∧ R x.2.2 y.2.2)
      (compressCore B true p al crcOn idOn input cap out c)
      (compressCore B true p' { al with precompute := pre } crcOn idOn input cap out d) := by
  unfold Api.compressCore
  rw [← h.structural, ← h.id]
  apply (h.encodePayload hstart input).bind
  rintro ⟨o, c1⟩ ⟨o', d1⟩ ⟨rfl, h1⟩
  cases o with
  | none => exact .ok ⟨rfl, rfl, h1⟩
  | some comp =>
    simp only
    split_ifs
    · exact .ok ⟨rfl, rfl, h1⟩
    · exact .ok ⟨rfl, rfl, h1⟩

theorem decodePayload (h : InStep B p p' R) (hstart : Starts B p p' R al.precompute pre c d)
    (f : Frame) :
    Alike (fun x y => x.1 = y.1 ∧ R x.2 y.2) (decodePayload B true p al f c)
      (decodePayload B true p' { al with precompute := pre } f d) := by
  unfold Api.decodePayload
  rw [← h.structural]
  apply (hstart _).bind
  intro c1 d1 h1
  cases al.output && al.coder with
  | false => exact .ok ⟨rfl, h1⟩
  | true =>
    cases hsd : decide (f.tag &&& tagSdelta ≠ 0) && Codec.structural p with
    | true =>
      have hs : Codec.structural p = true := (Bool.and_eq_true_iff.1 hsd).2
      simp only [Bool.not_true, Bool.false_eq_true, if_false, if_true]
      apply (h.alongside.decLoop (fun c _ => c.scLast)
        (fun hcd hc hd => h.scLast hs hcd hc hd) f.orig (cecDecNew f.payload) h1).bind
      rintro ⟨dec, dc, c2⟩ ⟨dec', dc', d2⟩ ⟨rfl, h2⟩
      exact .ok ⟨rfl, h2⟩
    | false =>
      simp only [Bool.not_true, Bool.false_eq_true, if_false]
      apply (h.alongside.decompress f.payload f.orig h1).bind
      rintro ⟨dec, c2⟩ ⟨dec', d2⟩ ⟨rfl, h2⟩
      exact .ok ⟨rfl, h2⟩

theorem decompressCore (h : InStep B p p' R) (hstart : Starts B p p' R al.precompute pre c d)
    (hcd : S c d) (hRS : ∀ {c d}, R c d → S c d) (input : List UInt8) (cap : Nat) (out : Buffer) :
    Alike (fun x y => x.1 = y.1 ∧ x.2.1 = y.2.1 ∧ S x.2.2 y.2.2)
      (decompressCore B true p al input cap out c)
      (decompressCore B true p' { al with precompute := pre } input cap out d) := by
  unfold Api.decompressCore
  rw [← h.id]
  cases parseFrame p.id input with
  | error s => exact .ok ⟨rfl, rfl, hcd⟩
  | ok f =>
    simp only
    split_ifs
    · exact .ok ⟨rfl, rfl, hcd⟩
    · exact .ok ⟨rfl, rfl, hcd⟩
    · apply (h.decodePayload hstart f).bind
      rintro ⟨o, c1⟩ ⟨o', d1⟩ ⟨rfl, h1⟩
      cases o with
      | none => exact .ok ⟨rfl, rfl, hRS h1⟩
      | some dec =>
        simp only
        split_ifs
        · exact .ok ⟨rfl, rfl, hRS h1⟩
        · exact .ok ⟨rfl, rfl, hRS h1⟩

end InStep

end Bcb.Api
