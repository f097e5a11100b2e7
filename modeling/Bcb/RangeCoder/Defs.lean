import Bcb.Lib.Loop
import Bcb.Machine
import Mathlib.Logic.Function.Iterate

/-! The range coder of `ce_compress.c`. -/

namespace Bcb.RangeCoder

open Lib

/-- `cum[0..256]` of a byte distribution. -/
abbrev Cum := Nat → Nat

/-- `CEC_RC_SCALE`. -/
def rcScale : Nat := 2 ^ 14

/-- The model a coder is given: its functions read and write the user state `σ`. -/
structure CecBT (σ : Type) where
  distribution : Nat → σ → Outcome (Cum × σ)
  train : UInt8 → σ → Outcome σ

structure CecEncoder where
  low : Nat
  high : Nat
  pending : Nat
  curByte : Nat
  curBits : Nat
  out : List UInt8

structure CecDecoder where
  low : Nat
  high : Nat
  code : Nat
  inp : List UInt8
  inPos : Nat
  curByte : Nat
  curBits : Nat

def cecEmitBit (e : CecEncoder) (bit : Bool) : CecEncoder :=
  let curByte := (2 * e.curByte + bit.toNat) % 256
  if e.curBits + 1 = 8 then
    { e with out := e.out ++ [UInt8.ofNat curByte], curByte := 0, curBits := 0 }
  else { e with curByte := curByte, curBits := e.curBits + 1 }

def cecFlushPending (bit : Bool) : Nat → CecEncoder → CecEncoder
  | 0, e => e
  | n + 1, e => cecFlushPending bit n { cecEmitBit e (!bit) with pending := n }

def cecFlush (e : CecEncoder) (bit : Bool) : CecEncoder :=
  cecFlushPending bit e.pending (cecEmitBit e bit)

def cecShiftEnc (e : CecEncoder) : CecEncoder :=
  { e with low := 2 * e.low % 2 ^ 32, high := (2 * e.high + 1) % 2 ^ 32 }

/-- One turn of the `while (1)` of `cec_renorm_enc_`, `none` at its `break`. -/
def cecRenormEncTurn (e : CecEncoder) : Option CecEncoder :=
  if e.high < 2 ^ 31 then some (cecShiftEnc (cecFlush e false))
  else if 2 ^ 31 ≤ e.low then
    some (cecShiftEnc { cecFlush e true with low := e.low - 2 ^ 31, high := e.high - 2 ^ 31 })
  else if 2 ^ 30 ≤ e.low ∧ e.high < 3 * 2 ^ 30 then
    some (cecShiftEnc { e with
      pending := (e.pending + 1) % 2 ^ 32, low := e.low - 2 ^ 30, high := e.high - 2 ^ 30 })
  else none

/-- `cecRenormEnc_done` shows that 32 turns always reach the `break`. -/
def cecRenormEnc (e : CecEncoder) : CecEncoder := Loop.run cecRenormEncTurn 32 e

/-- `low + (uint32_t)((r * cl) / tot)` and `low + (uint32_t)((r * ch) / tot) - 1`,
with `r = high - low + 1` in 64 bits. -/
def cecNarrow (low high cl ch tot : Nat) : Nat × Nat :=
  let r := sub32 high low + 1
  ((low + r * cl / tot % 2 ^ 32) % 2 ^ 32, sub32 ((low + r * ch / tot % 2 ^ 32) % 2 ^ 32) 1)

def cecEncSym (e : CecEncoder) (cl ch tot : Nat) : Outcome CecEncoder :=
  if tot = 0 then throw .divZero
  else
    let (low, high) := cecNarrow e.low e.high cl ch tot
    pure (cecRenormEnc { e with low := low, high := high })

def cecEncNew : CecEncoder := ⟨0, 0xFFFFFFFF, 0, 0, 0, []⟩

variable {σ : Type}

def cecEncByte (bt : CecBT σ) (e : CecEncoder) (s : σ) (byte : UInt8) :
    Outcome (CecEncoder × σ) := do
  let (cum, s) ← bt.distribution rcScale s
  let e ← cecEncSym e (cum byte.toNat) (cum (byte.toNat + 1)) (cum 256)
  let s ← bt.train byte s
  return (e, s)

/-- One turn of `while (e->cur_bits > 0) cec_emit_bit_(e, 0)`. -/
def cecPadTurn (e : CecEncoder) : Option CecEncoder :=
  if 0 < e.curBits then some (cecEmitBit e false) else none

def cecEncFinish (e : CecEncoder) : List UInt8 :=
  let e := cecFlush { e with pending := (e.pending + 1) % 2 ^ 32 } (!decide (e.low < 2 ^ 30))
  (Loop.run cecPadTurn 8 e).out

def cecReadBit (d : CecDecoder) : Bool × CecDecoder :=
  let d :=
    if d.curBits = 0 then
      if d.inPos < d.inp.length then
        { d with curByte := (d.inp.getD d.inPos 0).toNat, inPos := d.inPos + 1, curBits := 8 }
      else { d with curByte := 0, curBits := 8 }
    else d
  (d.curByte.testBit 7, { d with curByte := 2 * d.curByte % 256, curBits := d.curBits - 1 })

/-- `d->code = (d->code << 1) | cec_read_bit_(d)`. -/
def cecShiftCode (d : CecDecoder) : CecDecoder :=
  let (bit, d') := cecReadBit d
  { d' with code := (2 * d.code + bit.toNat) % 2 ^ 32 }

def cecDecNew (data : List UInt8) : CecDecoder :=
  cecShiftCode^[32] ⟨0, 0xFFFFFFFF, 0, data, 0, 0, 0⟩

def cecShiftDec (d : CecDecoder) : CecDecoder :=
  cecShiftCode { d with low := 2 * d.low % 2 ^ 32, high := (2 * d.high + 1) % 2 ^ 32 }

def cecRenormDecTurn (d : CecDecoder) : Option CecDecoder :=
  if d.high < 2 ^ 31 then some (cecShiftDec d)
  else if 2 ^ 31 ≤ d.low then
    some (cecShiftDec { d with
      code := sub32 d.code (2 ^ 31), low := d.low - 2 ^ 31, high := d.high - 2 ^ 31 })
  else if 2 ^ 30 ≤ d.low ∧ d.high < 3 * 2 ^ 30 then
    some (cecShiftDec { d with
      code := sub32 d.code (2 ^ 30), low := d.low - 2 ^ 30, high := d.high - 2 ^ 30 })
  else none

/-- `cecRenormDec_done` shows that 32 turns always reach the `break`. -/
def cecRenormDec (d : CecDecoder) : CecDecoder := Loop.run cecRenormDecTurn 32 d

/-- One turn of the binary search over `(lo, hi)`. -/
def cecSearchTurn (cum : Cum) (target : Nat) : Nat × Nat → Option (Nat × Nat)
  | (lo, hi) =>
    if lo + 1 < hi then
      let m := (lo + hi) / 2
      some (if cum m ≤ target then (m, hi) else (lo, m))
    else none

/-- The interval of 256 bytes is halved eight times. -/
def cecSearch (cum : Cum) (target : Nat) : UInt8 :=
  UInt8.ofNat (Loop.run (cecSearchTurn cum target) 8 (0, 256)).1

/-- The dividend is the 32-bit `code - low + 1`, widened, times `tot`, less 1 in 64 bits. -/
def cecTarget (d : CecDecoder) (tot : Nat) : Nat :=
  let r := sub32 d.high d.low + 1
  (((sub32 d.code d.low + 1) % 2 ^ 32 * tot + 2 ^ 64 - 1) % 2 ^ 64) / r % 2 ^ 32

/-- `cec_dec_byte` up to its call of `cec_renorm_dec_`. -/
def cecDecNarrow (d : CecDecoder) (cum : Cum) : Outcome (UInt8 × CecDecoder) :=
  let tot := cum 256
  let byte := cecSearch cum (cecTarget d tot)
  if tot = 0 then throw .divZero
  else
    let (low, high) := cecNarrow d.low d.high (cum byte.toNat) (cum (byte.toNat + 1)) tot
    pure (byte, { d with low := low, high := high })

def cecDecByte (bt : CecBT σ) (d : CecDecoder) (s : σ) : Outcome (UInt8 × CecDecoder × σ) := do
  let (cum, s) ← bt.distribution rcScale s
  let (byte, d) ← cecDecNarrow d cum
  let d := cecRenormDec d
  let s ← bt.train byte s
  return (byte, d, s)

/-- `for (...) cec_enc_byte(e, pre(data[i]))`; `pre` is read before each byte. -/
def cecEncLoop (bt : CecBT σ) (pre : σ → UInt8 → Outcome UInt8) :
    List UInt8 → CecEncoder → σ → Outcome (CecEncoder × σ)
  | [], e, s => pure (e, s)
  | b :: data, e, s => do
    let sym ← pre s b
    let (e, s) ← cecEncByte bt e s sym
    cecEncLoop bt pre data e s

/-- `for (...) out[i] = post(cec_dec_byte(d))`; `post` is read after each byte. -/
def cecDecLoop (bt : CecBT σ) (post : σ → UInt8 → UInt8) :
    Nat → CecDecoder → σ → Outcome (List UInt8 × CecDecoder × σ)
  | 0, d, s => pure ([], d, s)
  | n + 1, d, s => do
    let (byte, d, s) ← cecDecByte bt d s
    let (out, d', s') ← cecDecLoop bt post n d s
    return (post s byte :: out, d', s')

def cecCompress (bt : CecBT σ) (s : σ) (data : List UInt8) : Outcome (List UInt8 × σ) := do
  let (e, s) ← cecEncLoop bt (fun _ b => pure b) data cecEncNew s
  return (cecEncFinish e, s)

def cecDecompress (bt : CecBT σ) (s : σ) (data : List UInt8) (origLen : Nat) :
    Outcome (List UInt8 × σ) := do
  let (out, _, s) ← cecDecLoop bt (fun _ b => b) origLen (cecDecNew data) s
  return (out, s)

end Bcb.RangeCoder
