import Bcb.Api.InStep
import Bcb.Api.RoundTrip
import Bcb.Prior.SchemaImage

namespace Bcb.Api

open RangeCoder Prior Codec

/-- An encoder that has been used for any calls, with any arguments. -/
inductive EncoderUsed (B : Build) (p : BcbPrior) : BcbEncoder → Prop
  | new (alloc : Bool) : EncoderUsed B p (bcbEncoderNew B p alloc)
  | setChecksum {e : BcbEncoder} (on : Bool) : EncoderUsed B p e →
      EncoderUsed B p (bcbEncoderSetChecksum e on)
  | setPriorId {e : BcbEncoder} (on : Bool) : EncoderUsed B p e →
      EncoderUsed B p (bcbEncoderSetPriorId e on)
  | encode {e e' : BcbEncoder} {al : Alloc} {input : List UInt8} {cap : Nat} {out out' : Buffer}
      {r : Ret} : EncoderUsed B p e → bcbEncode B true p al e input cap out = .ok (r, out', e') →
      EncoderUsed B p e'

inductive DecoderUsed (B : Build) (p : BcbPrior) : BcbDecoder → Prop
  | new (alloc : Bool) : DecoderUsed B p (bcbDecoderNew B p alloc)
  | decode {d d' : BcbDecoder} {al : Alloc} {input : List UInt8} {cap : Nat} {out out' : Buffer}
      {r : Ret} : DecoderUsed B p d → bcbDecode B true p al d input cap out = .ok (r, out', d') →
      DecoderUsed B p d'

/-- Two codecs at the same place of the same message. -/
structure Abreast (B : Build) (p : BcbPrior) (c d : BcbCodec) : Prop where
  left : Coherent B p c
  right : Coherent B p d
  bare_eq : bare c = bare d

variable {B : Build} {im : Image} {p : BcbPrior} {c d : BcbCodec}

theorem Abreast.dist (h : Abreast B p c d) :
    Alike (fun x y => x.1 = y.1 ∧ Abreast B p x.2 y.2) (codecDist B true p rcScale c)
      (codecDist B true p rcScale d) := by
  have heq := (codecDist_bare h.left).trans ((h.bare_eq ▸ rfl :
    codecDist B true p rcScale (bare c) = codecDist B true p rcScale (bare d)).trans
      (codecDist_bare h.right).symm)
  apply (Alike.of_map heq).with_eq.mono
  rintro ⟨cum, c'⟩ ⟨cum', d'⟩ ⟨hxy, hc, hd⟩
  obtain ⟨rfl, hbare⟩ := Prod.mk.inj hxy
  exact ⟨rfl, h.left.dist hc, h.right.dist hd, hbare⟩

theorem Abreast.train (h : Abreast B p c d) (b : UInt8) :
    Alike (Abreast B p) (codecTrain p b c) (codecTrain p b d) := by
  have hbare : (codecTrain p b c).map bare = (codecTrain p b d).map bare := by
    rw [codecTrain_bare, h.bare_eq, ← codecTrain_bare]
  apply (Alike.of_map hbare).with_eq.mono
  rintro c' d' ⟨heq, hc, hd⟩
  exact ⟨h.left.train hc, h.right.train hd, heq⟩

theorem alongside_abreast :
    Alongside (bcbCodecCecBt B true p) (bcbCodecCecBt B true p) (Abreast B p) :=
  ⟨fun h => h.dist, fun b h => h.train b⟩

theorem Abreast.encXform (h : Abreast B p c d) (b : UInt8) :
    encXform p c b = encXform p d b := by
  unfold Api.encXform
  split_ifs
  · change bcbCodecEncXform p (bare c) b = bcbCodecEncXform p (bare d) b
    rw [h.bare_eq]
  · rfl

theorem Abreast.scLast (hs : structural p = true) (h : Abreast B p c d) {c' d' : BcbCodec}
    {b : UInt8} (hc : codecTrain p b c = .ok c') (hd : codecTrain p b d = .ok d') :
    c'.scLast = d'.scLast := by
  have hact := codecTrain_scLast hs hc
  rw [actualByte_bare h.bare_eq, codecTrain_scLast hs hd] at hact
  exact (Except.ok.inj hact).symm

theorem begin_abreast (hp : p.schemaRec ≠ 0 → SchemaReadable p) (hc : Coherent B p c)
    (hd : Coherent B p d) (al al' on : Bool) :
    Alike (Abreast B p) (bcbCodecSetSdelta B p al on (bcbCodecBegin B p c))
      (bcbCodecSetSdelta B p al' on (bcbCodecBegin B p d)) := by
  obtain ⟨c', hc'⟩ := bcbCodecSetSdelta_total (B := B) hp al on (bcbCodecBegin B p c)
  obtain ⟨d', hd'⟩ := bcbCodecSetSdelta_total (B := B) hp al' on (bcbCodecBegin B p d)
  rw [hc', hd']
  refine .ok ⟨hc.begin.setSdelta hc', hd.begin.setSdelta hd', ?_⟩
  rw [bare_start hc hc', bare_start hd hd']

/-- The results of the cores on two codecs: the same status and the same output. -/
def SameReply (B : Build) (p : BcbPrior) (x y : Ret × Buffer × BcbCodec) : Prop :=
  x.1 = y.1 ∧ x.2.1 = y.2.1 ∧ Coherent B p x.2.2 ∧ Coherent B p y.2.2

theorem inStep_abreast : InStep B p p (Abreast B p) where
  structural := rfl
  id := rfl
  alongside := alongside_abreast
  encXform b h := h.encXform b
  scLast hs _ _ _ _ _ h hc hd := h.scLast hs hc hd

theorem compressCore_alike (hp : p.schemaRec ≠ 0 → SchemaReadable p) (hc : Coherent B p c)
    (hd : Coherent B p d) (al : Alloc) (pre crcOn idOn : Bool) (input : List UInt8) (cap : Nat)
    (out : Buffer) :
    Alike (SameReply B p) (compressCore B true p al crcOn idOn input cap out c)
      (compressCore B true p { al with precompute := pre } crcOn idOn input cap out d) := by
  apply (inStep_abreast.compressCore (begin_abreast hp hc hd al.precompute pre) crcOn idOn input
    cap out).mono
  rintro x y ⟨hr, hout, h⟩
  exact ⟨hr, hout, h.left, h.right⟩

theorem decompressCore_alike (hp : p.schemaRec ≠ 0 → SchemaReadable p) (hc : Coherent B p c)
    (hd : Coherent B p d) (al : Alloc) (pre : Bool) (input : List UInt8) (cap : Nat)
    (out : Buffer) :
    Alike (SameReply B p) (decompressCore B true p al input cap out c)
      (decompressCore B true p { al with precompute := pre } input cap out d) :=
  inStep_abreast.decompressCore (S := fun c d => Coherent B p c ∧ Coherent B p d)
    (begin_abreast hp hc hd al.precompute pre) ⟨hc, hd⟩ (fun h => ⟨h.left, h.right⟩) input cap out

theorem EncoderUsed.coherent {e : BcbEncoder} (hp : p.schemaRec ≠ 0 → SchemaReadable p)
    (h : EncoderUsed B p e) : Coherent B p e.c := by
  induction h with
  | new alloc => exact .new alloc
  | setChecksum _ _ ih => exact ih
  | setPriorId _ _ ih => exact ih
  | @encode e e' al input cap out out' r _ hrun ih =>
    obtain ⟨⟨r1, out1, c1⟩, hcore, hrun⟩ := bind_eq_ok.1 hrun
    obtain ⟨-, -, -, -, hc, -⟩ :=
      (compressCore_alike hp ih ih al al.precompute e.crcOn e.idOn input cap out).ok_left hcore
    rw [← (Prod.mk.inj (Prod.mk.inj (Except.ok.inj hrun)).2).2]
    exact hc

theorem DecoderUsed.coherent {d : BcbDecoder} (hp : p.schemaRec ≠ 0 → SchemaReadable p)
    (h : DecoderUsed B p d) : Coherent B p d.c := by
  induction h with
  | new alloc => exact .new alloc
  | @decode d d' al input cap out out' r _ hrun ih =>
    obtain ⟨⟨r1, out1, c1⟩, hcore, hrun⟩ := bind_eq_ok.1 hrun
    obtain ⟨-, -, -, -, hc, -⟩ :=
      (decompressCore_alike hp ih ih al al.precompute input cap out).ok_left hcore
    rw [← (Prod.mk.inj (Prod.mk.inj (Except.ok.inj hrun)).2).2]
    exact hc

/-- A reused handle behaves like a fresh one.  Whether the new one finds memory for its cache
and its table makes no difference. -/
theorem handle_reused (hp : priorParse B im = .ok (some p)) (cacheAlloc pre : Bool) (al : Alloc)
    (input : List UInt8) (cap : Nat) (out : Buffer) :
    (∀ e, EncoderUsed B p e →
      (bcbEncode B true p al e input cap out).map (fun x => (x.1, x.2.1)) =
        (bcbEncode B true p { al with precompute := pre }
          (bcbEncoderSetPriorId (bcbEncoderSetChecksum (bcbEncoderNew B p cacheAlloc) e.crcOn)
            e.idOn) input cap out).map fun x => (x.1, x.2.1)) ∧
      ∀ d, DecoderUsed B p d →
        (bcbDecode B true p al d input cap out).map (fun x => (x.1, x.2.1)) =
          (bcbDecode B true p { al with precompute := pre } (bcbDecoderNew B p cacheAlloc) input cap
            out).map fun x => (x.1, x.2.1) := by
  have hread : p.schemaRec ≠ 0 → SchemaReadable p := fun h => priorParse_schema hp h
  constructor
  · intro e he
    apply Alike.map_eq (R := fun x y => x.1 = y.1 ∧ x.2.1 = y.2.1)
    · apply (compressCore_alike hread (he.coherent hread) (.new cacheAlloc) al pre e.crcOn e.idOn
        input cap out).bind
      rintro ⟨r, out1, c⟩ ⟨r', out1', d⟩ ⟨hr, hout, -⟩
      exact .ok ⟨hr, hout⟩
    · rintro x y ⟨hr, hout⟩
      exact Prod.ext hr hout
  · intro d hd
    apply Alike.map_eq (R := fun x y => x.1 = y.1 ∧ x.2.1 = y.2.1)
    · apply (decompressCore_alike hread (hd.coherent hread) (.new cacheAlloc) al pre input cap
        out).bind
      rintro ⟨r, out1, c⟩ ⟨r', out1', d⟩ ⟨hr, hout, -⟩
      exact .ok ⟨hr, hout⟩
    · rintro x y ⟨hr, hout⟩
      exact Prod.ext hr hout

theorem handle_reused_uniform :
    (∀ e, EncoderUsed .plain uniformPrior e →
      (bcbEncode .plain true uniformPrior ⟨true, true, true⟩ e [7, 7] 64 fun _ => 0).map
          (fun x => (x.1, x.2.1)) =
        (bcbEncode .plain true uniformPrior ⟨false, true, true⟩
          (bcbEncoderSetPriorId (bcbEncoderSetChecksum (bcbEncoderNew .plain uniformPrior true)
            e.crcOn) e.idOn) [7, 7] 64 fun _ => 0).map fun x => (x.1, x.2.1)) ∧
      ∀ d, DecoderUsed .plain uniformPrior d →
        (bcbDecode .plain true uniformPrior ⟨true, true, true⟩ d [7, 7] 64 fun _ => 0).map
            (fun x => (x.1, x.2.1)) =
          (bcbDecode .plain true uniformPrior ⟨false, true, true⟩
            (bcbDecoderNew .plain uniformPrior true) [7, 7] 64 fun _ => 0).map
            fun x => (x.1, x.2.1) :=
  handle_reused (priorParse_schemaImage 0 _) true false ⟨true, true, true⟩ [7, 7] 64 fun _ => 0

end Bcb.Api
