import Bcb.Api.Defs
import Bcb.Lib.Run

/-! The calls of `bcb.h` on a process: its open priors, its handles, and the lookup tables
they share.  The mallocs of `build_luts` are not checked by the source and succeed here. -/

namespace Bcb.Api

open Prior Codec Lib

/-- An object under the name the caller has for it.  No name is used twice. -/
inductive Slot (α : Type)
  | unused
  | live (a : α)
  | dead

namespace Slot

variable {α : Type}

def get : Slot α → Outcome α
  | .unused => throw .misuse
  | .live a => pure a
  | .dead => throw .misuse

def create (a : α) : Slot α → Outcome (Slot α)
  | .unused => pure (.live a)
  | .live _ => throw .misuse
  | .dead => throw .misuse

theorem get_eq_ok {s : Slot α} {a : α} (h : s.get = .ok a) : s = .live a := by
  cases s with
  | unused => cases h
  | live b => exact congrArg Slot.live (Except.ok.inj h)
  | dead => cases h

theorem create_eq_ok {s t : Slot α} {a : α} (h : s.create a = .ok t) :
    s = .unused ∧ t = .live a := by
  cases s with
  | unused => exact ⟨rfl, (Except.ok.inj h).symm⟩
  | live b => cases h
  | dead => cases h

end Slot

inductive Handle
  | encoder (e : BcbEncoder)
  | decoder (d : BcbDecoder)

namespace Handle

def asEncoder : Handle → Outcome BcbEncoder
  | .encoder e => pure e
  | .decoder _ => throw .misuse

def asDecoder : Handle → Outcome BcbDecoder
  | .encoder _ => throw .misuse
  | .decoder d => pure d

end Handle

structure Process where
  /-- whether `CONF_LOG2` and `EXP2_FRAC` are there: they come and go together -/
  luts : Bool
  priors : Nat → Slot BcbPrior
  /-- with the prior they were made from -/
  handles : Nat → Slot (Nat × Handle)

/-- Which of the allocations of a new handle succeed. -/
structure NewAlloc where
  handle : Bool
  codec : Bool
  cache : Bool

/-- `none` is a NULL pointer; an image is what a file shows or what is passed in. -/
inductive Call
  | priorOpen (p : Nat) (file : Option Image) (alloc : Bool)
  | priorFromMemory (p : Nat) (data : Option Image) (alloc : Bool)
  | priorClose (p : Option Nat)
  | encoderNew (h : Nat) (p : Option Nat) (al : NewAlloc)
  | decoderNew (h : Nat) (p : Option Nat) (al : NewAlloc)
  | encoderSetChecksum (h : Option Nat) (on : Bool)
  | encoderSetPriorId (h : Option Nat) (on : Bool)
  | encode (h : Option Nat) (al : Alloc) (input : List UInt8) (cap : Nat) (out : Buffer)
  | decode (h : Option Nat) (al : Alloc) (input : List UInt8) (cap : Nat) (out : Buffer)
  | compress (p : Option Nat) (new : NewAlloc) (al : Alloc) (input : List UInt8) (cap : Nat)
      (out : Buffer)
  | decompress (p : Option Nat) (new : NewAlloc) (al : Alloc) (input : List UInt8) (cap : Nat)
      (out : Buffer)
  | encoderFree (h : Option Nat)
  | decoderFree (h : Option Nat)

inductive Reply
  | done
  /-- whether the pointer is not NULL -/
  | ptr (made : Bool)
  /-- the return value, and the output memory after the call -/
  | ret (r : Ret) (out : Buffer)

/-- `prior_parse` on an image that can be had, `alloc` with the memory it takes. -/
def loadImage (B : Build) (im : Option Image) (alloc : Bool) : Outcome (Option BcbPrior) :=
  match im with
  | none => pure none
  | some im => if alloc then priorParse B im else pure none

namespace Call

/-- The prior a call opens. -/
def loads : Call → Option Nat
  | .priorOpen p _ _ => some p
  | .priorFromMemory p _ _ => some p
  | _ => none

def closes : Call → Option Nat
  | .priorClose p => p
  | _ => none

/-- The handle a call makes, and from which prior. -/
def creates : Call → Option (Nat × Nat)
  | .encoderNew h p _ => p.map fun p => (h, p)
  | .decoderNew h p _ => p.map fun p => (h, p)
  | _ => none

/-- The handle a call works with. -/
def uses : Call → Option Nat
  | .encoderSetChecksum h _ => h
  | .encoderSetPriorId h _ => h
  | .encode h _ _ _ _ => h
  | .decode h _ _ _ _ => h
  | _ => none

/-- Whether a one-shot call gets the codec it runs on. -/
def oneShotCodec : Call → Bool
  | .compress p new _ _ _ _ => p.isSome && new.codec
  | .decompress p new _ _ _ _ => p.isSome && new.codec
  | _ => false

/-- Whether a call on a handle over `q` codes any byte. -/
def codes (q : BcbPrior) : Call → Bool
  | .encode _ al input _ _ => al.coder && !input.isEmpty
  | .decode _ al input cap _ => match parseFrame q.id input with
    | .error _ => false
    | .ok f => f.orig ≤ cap && f.orig ≠ 0 && al.output && al.coder
  | _ => false

end Call

namespace Process

def initial : Process := ⟨false, fun _ => .unused, fun _ => .unused⟩

/-- `bt_v3_ensure_luts`. -/
def ensureLuts (s : Process) : Process := { s with luts := true }

/-- What of `bt_v3_detach` the codecs see. -/
def detach (s : Process) : Process := { s with luts := false }

variable (B : Build) (s : Process)

/-- `bcb_prior_open` and `bcb_prior_from_memory`, which differ in where the image comes from. -/
def loadPrior (p : Nat) (im : Option Image) (alloc : Bool) : Outcome (Reply × Process) := do
  match ← loadImage B im alloc with
  | none => return (.ptr false, s)
  | some q =>
    let slot ← (s.priors p).create q
    return (.ptr true, { s.ensureLuts with priors := Function.update s.priors p slot })

def bcbPriorClose (p : Nat) : Outcome (Reply × Process) := do
  let _ ← (s.priors p).get
  return (.done, { s.detach with priors := Function.update s.priors p .dead })

def newHandle (h : Nat) (p : Option Nat) (al : NewAlloc) (make : BcbPrior → Handle) :
    Outcome (Reply × Process) := do
  match p with
  | none => return (.ptr false, s)
  | some p =>
    let q ← (s.priors p).get
    if !(al.handle && al.codec) then return (.ptr false, s)
    let slot ← (s.handles h).create (p, make q)
    return (.ptr true, { s.ensureLuts with handles := Function.update s.handles h slot })

/-- A call on a handle, or what it answers for NULL. -/
def onHandle (h : Option Nat) (null : Reply) (f : Nat → Handle → Outcome (Reply × Handle)) :
    Outcome (Reply × Process) := do
  match h with
  | none => return (null, s)
  | some h =>
    let (p, hd) ← (s.handles h).get
    let (r, hd) ← f p hd
    return (r, { s with handles := Function.update s.handles h (.live (p, hd)) })

def setEncoder (f : BcbEncoder → BcbEncoder) (hd : Handle) : Outcome (Reply × Handle) := do
  let e ← hd.asEncoder
  return (.done, .encoder (f e))

def encodeWith (al : Alloc) (input : List UInt8) (cap : Nat) (out : Buffer) (p : Nat)
    (hd : Handle) : Outcome (Reply × Handle) := do
  let e ← hd.asEncoder
  let q ← (s.priors p).get
  let (r, out, e) ← bcbEncode B s.luts q al e input cap out
  return (.ret r out, .encoder e)

def decodeWith (al : Alloc) (input : List UInt8) (cap : Nat) (out : Buffer) (p : Nat)
    (hd : Handle) : Outcome (Reply × Handle) := do
  let d ← hd.asDecoder
  let q ← (s.priors p).get
  let (r, out, d) ← bcbDecode B s.luts q al d input cap out
  return (.ret r out, .decoder d)

/-- A call over a codec of its own. -/
def oneShot (p : Option Nat) (new : NewAlloc) (out : Buffer)
    (f : Bool → BcbPrior → Outcome (Ret × Buffer)) : Outcome (Reply × Process) := do
  match p with
  | none => return (.ret (.error .invalidPrior) out, s)
  | some p =>
    let q ← (s.priors p).get
    if !new.codec then return (.ret (.error .invalidPrior) out, s)
    let s := s.ensureLuts
    let (r, out) ← f s.luts q
    return (.ret r out, s)

def free (h : Option Nat) (check : Handle → Outcome Unit) : Outcome (Reply × Process) := do
  match h with
  | none => return (.done, s)
  | some h =>
    let (_, hd) ← (s.handles h).get
    check hd
    return (.done, { s with handles := Function.update s.handles h .dead })

def step (B : Build) (s : Process) : Call → Outcome (Reply × Process)
  | .priorOpen p file alloc => s.loadPrior B p file alloc
  | .priorFromMemory p data alloc => s.loadPrior B p data alloc
  | .priorClose none => pure (.done, s)
  | .priorClose (some p) => s.bcbPriorClose p
  | .encoderNew h p al => s.newHandle h p al fun q => .encoder (bcbEncoderNew B q al.cache)
  | .decoderNew h p al => s.newHandle h p al fun q => .decoder (bcbDecoderNew B q al.cache)
  | .encoderSetChecksum h on =>
    s.onHandle h .done fun _ => setEncoder (bcbEncoderSetChecksum · on)
  | .encoderSetPriorId h on =>
    s.onHandle h .done fun _ => setEncoder (bcbEncoderSetPriorId · on)
  | .encode h al input cap out =>
    s.onHandle h (.ret (.error .invalidPrior) out) (s.encodeWith B al input cap out)
  | .decode h al input cap out =>
    s.onHandle h (.ret (.error .invalidPrior) out) (s.decodeWith B al input cap out)
  | .compress p new al input cap out =>
    s.oneShot p new out fun luts q => bcbCompress B luts q new.cache al input cap out
  | .decompress p new al input cap out =>
    s.oneShot p new out fun luts q => bcbDecompress B luts q new.cache al input cap out
  | .encoderFree h => s.free h fun hd => do let _ ← hd.asEncoder
  | .decoderFree h => s.free h fun hd => do let _ ← hd.asDecoder

end Process

end Bcb.Api
