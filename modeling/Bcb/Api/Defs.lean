import Bcb.Codec.Defs

/-! The container of `bcb_api.c` and the calls on handles. -/

namespace Bcb.Api

open RangeCoder Prior Codec

inductive BcbStatus
  | invalidPrior
  | outputTooSmall
  | corrupted
  | version
  | priorIdMismatch
  deriving DecidableEq

/-- A non-negative `ssize_t`, or an error. -/
abbrev Ret := Except BcbStatus Nat

/-- The caller's output memory. -/
abbrev Buffer := Nat → UInt8

namespace Buffer

/-- `memcpy(out + off, l, length)`. -/
def write (out : Buffer) (off : Nat) (l : List UInt8) : Buffer := fun i =>
  if off ≤ i ∧ i < off + l.length then l.getD (i - off) 0 else out i

def read (out : Buffer) (n : Nat) : List UInt8 := (List.range n).map out

end Buffer

def tagCrc : UInt8 := 0x01
def tagId : UInt8 := 0x02
def tagSdelta : UInt8 := 0x04

/-- `BCB_PRIOR_ID_LEN`. -/
def priorIdLen : Nat := 16

def crcBit (c : UInt32) : UInt32 := (c >>> 1) ^^^ (0xEDB88320 &&& (0 - (c &&& 1)))

def crc32Byte (c : UInt32) (b : UInt8) : UInt32 := crcBit^[8] (c ^^^ b.toUInt32)

def crc32 (d : List UInt8) : UInt32 := d.foldl crc32Byte 0xFFFFFFFF ^^^ 0xFFFFFFFF

/-- A 64-bit value has at most ten groups of seven bits. -/
def varintPutGroups : Nat → Nat → List UInt8
  | 0, _ => []
  | n + 1, v =>
    if v / 128 = 0 then [UInt8.ofNat (v % 128)]
    else UInt8.ofNat (v % 128 + 128) :: varintPutGroups n (v / 128)

def varintPut (v : Nat) : List UInt8 := varintPutGroups 10 v

/-- The loop of `varint_get` from byte `i` on. -/
def varintGetFrom (v i : Nat) : Nat → List UInt8 → Option (Nat × Nat)
  | 0, _ => none
  | _ + 1, [] => none
  | n + 1, b :: buf =>
    let v := v ||| (b.toNat % 128) <<< (7 * i) % 2 ^ 64
    if b.toNat < 128 then some (v, i + 1) else varintGetFrom v (i + 1) n buf

/-- The value and the number of bytes it takes, `none` for -1. -/
def varintGet (buf : List UInt8) : Option (Nat × Nat) := varintGetFrom 0 0 10 buf

def bcbCompressBound (inputLen : Nat) : Nat := inputLen * 2 + 64

/-- Which of the allocations that a call checks succeed. -/
structure Alloc where
  precompute : Bool
  coder : Bool
  output : Bool

def tagOf (crcOn idOn sd : Bool) : UInt8 :=
  (if crcOn then tagCrc else 0) ||| (if idOn then tagId else 0) ||| (if sd then tagSdelta else 0)

/-- The four bytes of a checksum, the lowest first. -/
def le32Bytes (c : UInt32) : List UInt8 :=
  [c.toUInt8, (c >>> 8).toUInt8, (c >>> 16).toUInt8, (c >>> 24).toUInt8]

def containerHeader (crcOn idOn sd : Bool) (id : List UInt8) (input : List UInt8) : List UInt8 :=
  tagOf crcOn idOn sd :: (varintPut input.length ++
    ((if crcOn then le32Bytes (crc32 input) else []) ++ (if idOn then id else [])))

section Core

variable (B : Build) (luts : Bool) (p : BcbPrior)

/-- The two loops over the input: symbols for a structural prior, bytes for another. -/
def encXform : BcbCodec → UInt8 → Outcome UInt8 :=
  if structural p then bcbCodecEncXform p else fun _ b => pure b

/-- The range payload of a message, `none` where the coder is not allocated. -/
def encodePayload (al : Alloc) (input : List UInt8) (c : BcbCodec) :
    Outcome (Option (List UInt8) × BcbCodec) := do
  let c ← bcbCodecSetSdelta B p al.precompute (structural p) (bcbCodecBegin B p c)
  if !al.coder then return (none, c)
  let (e, c) ← cecEncLoop (bcbCodecCecBt B luts p) (encXform p) input cecEncNew c
  return (some (cecEncFinish e), c)

def compressCore (al : Alloc) (crcOn idOn : Bool) (input : List UInt8) (cap : Nat)
    (out : Buffer) (c : BcbCodec) : Outcome (Ret × Buffer × BcbCodec) := do
  match ← encodePayload B luts p al input c with
  | (none, c) => return (.error .invalidPrior, out, c)
  | (some comp, c) =>
    let hdr := containerHeader crcOn idOn (structural p) p.id input
    if cap < hdr.length + comp.length then return (.error .outputTooSmall, out, c)
    return (.ok (hdr.length + comp.length), (out.write 0 hdr).write hdr.length comp, c)

/-- What stands before the range payload. -/
structure Frame where
  tag : UInt8
  orig : Nat
  /-- the stored checksum, where the tag announces one -/
  want : Option UInt32
  payload : List UInt8

def le32 (l : List UInt8) : UInt32 :=
  (l.getD 0 0).toUInt32 ||| ((l.getD 1 0).toUInt32 <<< 8) |||
    ((l.getD 2 0).toUInt32 <<< 16) ||| ((l.getD 3 0).toUInt32 <<< 24)

def takeCrc (tag : UInt8) (input : List UInt8) : Except BcbStatus (Option UInt32 × List UInt8) :=
  if tag &&& tagCrc ≠ 0 then
    if input.length < 4 then throw .corrupted else pure (some (le32 input), input.drop 4)
  else pure (none, input)

def takeId (id : List UInt8) (tag : UInt8) (input : List UInt8) : Except BcbStatus (List UInt8) :=
  if tag &&& tagId ≠ 0 then
    if input.length < priorIdLen then throw .corrupted
    else if input.take priorIdLen ≠ id then throw .priorIdMismatch
    else pure (input.drop priorIdLen)
  else pure input

/-- `decompress_core` up to the check of the capacity. -/
def parseFrame (id : List UInt8) : List UInt8 → Except BcbStatus Frame
  | [] => throw .corrupted
  | tag :: input => do
    match varintGet input with
    | none => throw .corrupted
    | some (orig, hn) =>
      let (want, rest) ← takeCrc tag (input.drop hn)
      let payload ← takeId id tag rest
      return ⟨tag, orig, want, payload⟩

/-- The decoding of the payload, `none` where an allocation fails. -/
def decodePayload (al : Alloc) (f : Frame) (c : BcbCodec) :
    Outcome (Option (List UInt8) × BcbCodec) := do
  let sd := f.tag &&& tagSdelta ≠ 0 && structural p
  let c ← bcbCodecSetSdelta B p al.precompute sd (bcbCodecBegin B p c)
  if !(al.output && al.coder) then return (none, c)
  let bt := bcbCodecCecBt B luts p
  if sd then
    let (dec, _, c) ← cecDecLoop bt (fun c _ => c.scLast) f.orig (cecDecNew f.payload) c
    return (some dec, c)
  else
    let (dec, c) ← cecDecompress bt c f.payload f.orig
    return (some dec, c)

def decompressCore (al : Alloc) (input : List UInt8) (cap : Nat) (out : Buffer) (c : BcbCodec) :
    Outcome (Ret × Buffer × BcbCodec) :=
  match parseFrame p.id input with
  | .error s => return (.error s, out, c)
  | .ok f => do
    if cap < f.orig then return (.error .outputTooSmall, out, c)
    if f.orig = 0 then return (.ok 0, out, c)
    match ← decodePayload B luts p al f c with
    | (none, c) => return (.error .corrupted, out, c)
    | (some dec, c) =>
      if f.want.any (crc32 dec ≠ ·) then return (.error .corrupted, out, c)
      return (.ok f.orig, out.write 0 dec, c)

end Core

structure BcbEncoder where
  c : BcbCodec
  crcOn : Bool
  idOn : Bool

structure BcbDecoder where
  c : BcbCodec

section Handles

variable (B : Build) (luts : Bool) (p : BcbPrior)

def bcbEncoderNew (alloc : Bool) : BcbEncoder := ⟨bcbCodecNew B p alloc, true, false⟩

def bcbEncoderSetChecksum (e : BcbEncoder) (on : Bool) : BcbEncoder := { e with crcOn := on }

def bcbEncoderSetPriorId (e : BcbEncoder) (on : Bool) : BcbEncoder := { e with idOn := on }

def bcbEncode (al : Alloc) (e : BcbEncoder) (input : List UInt8) (cap : Nat) (out : Buffer) :
    Outcome (Ret × Buffer × BcbEncoder) := do
  let (r, out, c) ← compressCore B luts p al e.crcOn e.idOn input cap out e.c
  return (r, out, { e with c := c })

def bcbDecoderNew (alloc : Bool) : BcbDecoder := ⟨bcbCodecNew B p alloc⟩

def bcbDecode (al : Alloc) (d : BcbDecoder) (input : List UInt8) (cap : Nat) (out : Buffer) :
    Outcome (Ret × Buffer × BcbDecoder) := do
  let (r, out, c) ← decompressCore B luts p al input cap out d.c
  return (r, out, { d with c := c })

/-- One-shot, over a codec of its own. -/
def bcbCompress (cacheAlloc : Bool) (al : Alloc) (input : List UInt8) (cap : Nat) (out : Buffer) :
    Outcome (Ret × Buffer) := do
  let (r, out, _) ← compressCore B luts p al true false input cap out (bcbCodecNew B p cacheAlloc)
  return (r, out)

def bcbDecompress (cacheAlloc : Bool) (al : Alloc) (input : List UInt8) (cap : Nat)
    (out : Buffer) : Outcome (Ret × Buffer) := do
  let (r, out, _) ← decompressCore B luts p al input cap out (bcbCodecNew B p cacheAlloc)
  return (r, out)

end Handles

end Bcb.Api
