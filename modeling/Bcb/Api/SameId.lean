import Bcb.Api.Reuse
import Bcb.Codec.Hashed

namespace Bcb.Api

open RangeCoder Bt Prior Codec

variable {B : Build} {im im' : Image} {p p' : BcbPrior} {c d : BcbCodec}

/-- One codec, over either prior. -/
structure Either (B : Build) (p : BcbPrior) (c d : BcbCodec) : Prop where
  eq : c = d
  coherent : Coherent B p c

theorem scPos_lt_schemaPos (hread : p.schemaRec ≠ 0 → SchemaReadable p) (hc : Coherent B p c)
    (hs : structural p = true) : c.scPos < p.schemaPos := by
  rw [(hread (structural_rec_pos hs).1.ne').pos]
  exact hc.pos hs

theorem alongside_either (h : SameModel B p p') (hread : p.schemaRec ≠ 0 → SchemaReadable p) :
    Alongside (bcbCodecCecBt B true p) (bcbCodecCecBt B true p') (Either B p) := by
  constructor
  · rintro c _ ⟨rfl, hc⟩
    apply (Alike.of_eq (h.dist c rcScale)).with_eq.mono
    rintro ⟨cum, c'⟩ _ ⟨rfl, hrun, -⟩
    exact ⟨rfl, rfl, hc.dist hrun⟩
  · rintro c _ b ⟨rfl, hc⟩
    apply (Alike.of_eq (h.train (scPos_lt_schemaPos hread hc) b)).with_eq.mono
    rintro c' _ ⟨rfl, hrun, -⟩
    exact ⟨rfl, hc.train hrun⟩

theorem encXform_eq (h : SameModel B p p') (c : BcbCodec) (b : UInt8) :
    encXform p c b = encXform p' c b := by
  unfold encXform
  rw [← h.structural]
  split_ifs
  · exact h.encXform c b
  · rfl

theorem inStep_either (h : SameModel B p p') (hread : p.schemaRec ≠ 0 → SchemaReadable p) :
    InStep B p p' (Either B p) where
  structural := h.structural
  id := h.id
  alongside := alongside_either h hread
  encXform b hcd := hcd.eq ▸ encXform_eq h _ b
  scLast := by
    rintro - c c' _ d' b ⟨rfl, hc⟩ htrain htrain'
    rw [h.train (scPos_lt_schemaPos hread hc) b, htrain'] at htrain
    rw [Except.ok.inj htrain]

theorem starts_either (h : SameModel B p p') (hc : Coherent B p c) (pre : Bool) :
    Starts B p p' (Either B p) pre pre c c := by
  intro on
  rw [← h.begin, ← h.setSdelta]
  apply (Alike.of_eq rfl).with_eq.mono
  rintro c1 _ ⟨rfl, hset, -⟩
  exact ⟨rfl, hc.begin.setSdelta hset⟩

theorem compressCore_eq (h : SameModel B p p') (hread : p.schemaRec ≠ 0 → SchemaReadable p)
    (hc : Coherent B p c) (al : Alloc) (crcOn idOn : Bool) (input : List UInt8) (cap : Nat)
    (out : Buffer) : compressCore B true p al crcOn idOn input cap out c =
      compressCore B true p' al crcOn idOn input cap out c := by
  apply Alike.eq
  apply ((inStep_either h hread).compressCore (starts_either h hc al.precompute) crcOn idOn input
    cap out).mono
  rintro x y ⟨hr, hout, hxy⟩
  exact Prod.ext hr (Prod.ext hout hxy.eq)

theorem decompressCore_eq (h : SameModel B p p') (hread : p.schemaRec ≠ 0 → SchemaReadable p)
    (hc : Coherent B p c) (al : Alloc) (input : List UInt8) (cap : Nat) (out : Buffer) :
    decompressCore B true p al input cap out c = decompressCore B true p' al input cap out c := by
  apply Alike.eq
  apply ((inStep_either h hread).decompressCore (S := Eq) (starts_either h hc al.precompute) rfl
    (fun hcd => hcd.eq) input cap out).mono
  rintro x y ⟨hr, hout, hxy⟩
  exact Prod.ext hr (Prod.ext hout hxy)

/-- Every message becomes the same container with both priors, and every container is read alike,
on handles that have been used for anything and in the one-shot calls. -/
structure CodesAlike (B : Build) (p p' : BcbPrior) : Prop where
  encode : ∀ e, EncoderUsed B p e → ∀ al input cap out,
    bcbEncode B true p al e input cap out = bcbEncode B true p' al e input cap out
  decode : ∀ d, DecoderUsed B p d → ∀ al input cap out,
    bcbDecode B true p al d input cap out = bcbDecode B true p' al d input cap out
  encoderNew : ∀ cacheAlloc, bcbEncoderNew B p cacheAlloc = bcbEncoderNew B p' cacheAlloc
  decoderNew : ∀ cacheAlloc, bcbDecoderNew B p cacheAlloc = bcbDecoderNew B p' cacheAlloc
  compress : ∀ cacheAlloc al input cap out,
    bcbCompress B true p cacheAlloc al input cap out =
      bcbCompress B true p' cacheAlloc al input cap out
  decompress : ∀ cacheAlloc al input cap out,
    bcbDecompress B true p cacheAlloc al input cap out =
      bcbDecompress B true p' cacheAlloc al input cap out

theorem codesAlike (h : SameModel B p p') (hread : p.schemaRec ≠ 0 → SchemaReadable p) :
    CodesAlike B p p' := by
  refine ⟨fun e he al input cap out => ?_, fun d hd al input cap out => ?_, fun cacheAlloc => ?_,
    fun cacheAlloc => ?_, fun cacheAlloc al input cap out => ?_,
    fun cacheAlloc al input cap out => ?_⟩
  · rw [bcbEncode, compressCore_eq h hread (he.coherent hread), ← bcbEncode]
  · rw [bcbDecode, decompressCore_eq h hread (hd.coherent hread), ← bcbDecode]
  · rw [bcbEncoderNew, h.new, ← bcbEncoderNew]
  · rw [bcbDecoderNew, h.new, ← bcbDecoderNew]
  · rw [bcbCompress, compressCore_eq h hread (.new cacheAlloc), h.new, ← bcbCompress]
  · rw [bcbDecompress, decompressCore_eq h hread (.new cacheAlloc), h.new, ← bcbDecompress]

/-- Priors over this header that have one id code alike. -/
def PairsAlike (B : Build) (hd : BcbpHeader) : Prop :=
  ∀ {im im' : Image} {p p' : BcbPrior}, priorParse B im = .ok (some p) →
    priorParse B im' = .ok (some p') → header im = hd → SameHashed im im' → CodesAlike B p p'

theorem pairsAlike_of_hashed {hd : BcbpHeader} (hh : Hashed hd) : PairsAlike B hd := by
  rintro im im' p p' hp hp' rfl hsame
  exact codesAlike (hsame.model hh hp hp') fun hrec => priorParse_schema hp hrec

/-! ## File sizes that a header declares -/

def declaredHeader (n : Nat) : BcbpHeader := { schemaHeader with fileSize := n }

/-- The image of a record prior with an id over its first `n` bytes. -/
def declaredImage (n : Nat) (row : UInt8 → UInt16) (bloom : UInt8) : Image :=
  withHeader (declaredHeader n) (688 + 2 ^ 21) fun i =>
    if i < 688 then schemaByte 0 row i else bloom

def declaredPrior (n : Nat) (row : UInt8 → UInt16) (bloom : UInt8) : BcbPrior :=
  priorOf (declaredImage n row bloom) (declaredHeader n) (fun _ => -1) 0

section Declared

variable {n : Nat} {row row' : UInt8 → UInt16} {bloom bloom' : UInt8}

theorem header_declaredImage (hn : n ≤ 688) :
    header (declaredImage n row bloom) = declaredHeader n :=
  header_withHeader { schemaHeader_fits with fileSize := hn.trans_lt (by decide) }
    (by simp [headerSize])

theorem priorParse_declaredImage (hn : n ≤ 688)
    (hok : headerOk (declaredHeader n) (688 + 2 ^ 21) = true)
    (hvalid : btV3Validate .plain (snapshot (declaredImage n row bloom) (declaredHeader n)) =
      .ok true) :
    priorParse .plain (declaredImage n row bloom) = .ok (some (declaredPrior n row bloom)) := by
  have hlen : ¬ (declaredImage n row bloom).len < headerSize := by
    simp [declaredImage, withHeader, headerSize]
  have hok : headerOk (declaredHeader n) (declaredImage n row bloom).len = true := hok
  have hindex : lmBuildIndex (lmCtxAt (declaredImage n row bloom) (declaredHeader n))
      ((declaredHeader n).lmK % 2 ^ 32) = .ok (fun _ => -1, 0) := rfl
  simp only [priorParse, if_neg hlen, header_declaredImage hn, hok, hvalid, ok_bind, hindex,
    Bool.not_true, Bool.false_eq_true, if_false]
  rfl

theorem sameHashed_declaredImage (hn : n ≤ 688)
    (h : ∀ i, 168 ≤ i → i < n → schemaByte 0 row i = schemaByte 0 row' i) :
    SameHashed (declaredImage n row bloom) (declaredImage n row' bloom') := by
  constructor
  · rw [header_declaredImage hn, header_declaredImage hn]
  · rw [header_declaredImage hn]
    intro i hi
    change i < n at hi
    by_cases h168 : i < headerSize
    · rw [declaredImage, declaredImage, withHeader_byteAt_header h168 (by simp [headerSize]),
        withHeader_byteAt_header h168 (by simp [headerSize])]
    · rw [declaredImage, declaredImage, withHeader_byteAt (not_lt.1 h168) (by omega),
        withHeader_byteAt (not_lt.1 h168) (by omega), if_pos (by omega), if_pos (by omega),
        h i (not_lt.1 h168) hi]

end Declared

/-- Most of the scale on the byte 0. -/
def steepRow (b : UInt8) : UInt16 := if b = 0 then 0x4000 - 255 else 1

end Bcb.Api
