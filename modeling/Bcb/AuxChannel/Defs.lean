import Bcb.Symdist.Normalize

/-! The auxiliary channels of `aux_channel.c`: counts of a corpus, blended into a table. -/

namespace Bcb.Aux

open RangeCoder Symdist

/-- `A_DEN`. -/
def aDen : Nat := 2 ^ 16

section Blend

variable (W : Words)

/-- `nw` of `blend_into` for a byte of width `wbt`. -/
def blended (total scale alpha wbt prior : Nat) : Outcome Nat := do
  let pbtS := (← W.u64 (wbt * scale)) / total
  let a ← W.u64 (alpha * pbtS)
  let rest ← W.u64 ((← W.sub32 aDen alpha) * prior)
  return (← W.u64 (a + rest)) / aDen

def blendInto (cum : Cum) (scale alpha : Nat) (priorW : UInt8 → Nat) : Outcome Cum :=
  if cum 256 = 0 then pure cum
  else do
    let nw ← forBytes fun b => do
      let wbt ← W.sub32 (cum (b.toNat + 1)) (cum b.toNat)
      W.u32 (← blended W (cum 256) scale alpha wbt (priorW b))
    let nc ← accumulate W.u32 W.u64 cum nw
    symdistNormalize W nc scale

/-- `n` of `tot` in parts of `scale`, and `other` where nothing has been counted. -/
def part (scale : Nat) (n tot : UInt32) (other : Nat) : Outcome Nat :=
  if tot = 0 then pure other else do W.u32 ((← W.u64 (scale * n.toNat)) / tot.toNat)

end Blend

/-- Counts with their total, such as `bytecnt` with `type_tot`. -/
structure Counter (κ β : Type) where
  cnt : κ → β → UInt32
  tot : κ → UInt32

namespace Counter

variable {κ β : Type} [DecidableEq κ] [DecidableEq β]

def zero : Counter κ β := ⟨fun _ _ => 0, fun _ => 0⟩

def bump (c : Counter κ β) (k : κ) (b : β) : Counter κ β where
  cnt := Function.update c.cnt k (Function.update (c.cnt k) b (c.cnt k b + 1))
  tot := Function.update c.tot k (c.tot k + 1)

end Counter

/-- The types of bytes, `NTYPES` of them. -/
inductive ByteType
  | space | nl | lower | upper | digit | punct | other
  deriving DecidableEq

def nTypes : Nat := 7

def byteType (b : UInt8) : ByteType :=
  if b = 0x20 ∨ b = 0x09 then .space
  else if b = 0x0A ∨ b = 0x0D then .nl
  else if 0x61 ≤ b ∧ b ≤ 0x7A then .lower
  else if 0x41 ≤ b ∧ b ≤ 0x5A then .upper
  else if 0x30 ≤ b ∧ b ≤ 0x39 then .digit
  else if 33 ≤ b ∧ b ≤ 126 then .punct
  else .other

inductive CaseClass
  | lower | upper | nonLetter
  deriving DecidableEq

def nCase : Nat := 3

def caseClass (b : UInt8) : CaseClass :=
  if 0x61 ≤ b ∧ b ≤ 0x7A then .lower
  else if 0x41 ≤ b ∧ b ≤ 0x5A then .upper
  else .nonLetter

/-- The state of a channel that counts the classes of bytes and what follows a class. -/
structure ClassState (κ : Type) where
  trans : Counter κ κ
  bytecnt : Counter κ UInt8
  prev : κ

section Classes

variable {κ : Type} [DecidableEq κ]

def classReset (start : κ) : ClassState κ := ⟨.zero, .zero, start⟩

/-- One byte of a corpus; `prev` is `none` for -1. -/
def classCount (cls : UInt8 → κ) (s : ClassState κ) (prev : Option κ) (b : UInt8) : ClassState κ :=
  { s with
    bytecnt := s.bytecnt.bump (cls b) b
    trans := match prev with
      | none => s.trans
      | some p => s.trans.bump p (cls b) }

def classLearn (cls : UInt8 → κ) (start : κ) (corpus : List UInt8) : ClassState κ :=
  let (s, prev) := corpus.foldl (fun (x : ClassState κ × Option κ) b =>
    (classCount cls x.1 x.2 b, some (cls b))) (classReset start, none)
  { s with prev := prev.getD start }

def classObserve (cls : UInt8 → κ) (s : ClassState κ) (b : UInt8) : ClassState κ :=
  { s with prev := cls b }

/-- `prior_w`: what the class is expected with, then the byte in its class. -/
def classPrior {ι : Type} (W : Words) (cls : UInt8 → κ) (nClasses scale : Nat)
    (trans : Counter ι κ) (i : ι) (bytecnt : Counter κ UInt8) : Outcome (UInt8 → Nat) :=
  forBytes fun b => do
    let pt ← part W scale (trans.cnt i (cls b)) (trans.tot i) (scale / nClasses)
    part W pt (bytecnt.cnt (cls b) b) (bytecnt.tot (cls b)) 0

def classAdjust (W : Words) (cls : UInt8 → κ) (nClasses : Nat) (s : ClassState κ) (alpha : Nat)
    (cum : Cum) (scale : Nat) : Outcome Cum := do
  let priorW ← classPrior W cls nClasses scale s.trans s.prev s.bytecnt
  blendInto W cum scale alpha priorW

end Classes

/-! ## byte_type -/

abbrev ByteTypeState := ClassState ByteType

def btReset : ByteTypeState := classReset .space

def btLearn : List UInt8 → ByteTypeState := classLearn byteType .space

def btObserve : ByteTypeState → UInt8 → ByteTypeState := classObserve byteType

def btAdjust (W : Words) : ByteTypeState → Nat → Cum → Nat → Outcome Cum :=
  classAdjust W byteType nTypes

/-! ## bigram_type -/

structure BigramState where
  trans2 : Counter (ByteType × ByteType) ByteType
  bytecnt : Counter ByteType UInt8
  pt1 : ByteType
  pt2 : ByteType

def bgReset : BigramState := ⟨.zero, .zero, .space, .space⟩

/-- One byte of a corpus; `pt2` and `pt1` are `none` for -1. -/
def bgCount (s : BigramState) (pt2 pt1 : Option ByteType) (b : UInt8) : BigramState :=
  { s with
    bytecnt := s.bytecnt.bump (byteType b) b
    trans2 := match pt2, pt1 with
      | some p2, some p1 => s.trans2.bump (p2, p1) (byteType b)
      | _, _ => s.trans2 }

def bgLearn (corpus : List UInt8) : BigramState :=
  let (s, pt2, pt1) := corpus.foldl
    (fun (x : BigramState × Option ByteType × Option ByteType) b =>
      (bgCount x.1 x.2.1 x.2.2 b, x.2.2, some (byteType b))) (bgReset, none, none)
  { s with pt1 := pt1.getD .space, pt2 := pt2.getD .space }

def bgObserve (s : BigramState) (b : UInt8) : BigramState :=
  { s with pt2 := s.pt1, pt1 := byteType b }

def bgAdjust (W : Words) (s : BigramState) (alpha : Nat) (cum : Cum) (scale : Nat) :
    Outcome Cum := do
  let priorW ← classPrior W byteType nTypes scale s.trans2 (s.pt2, s.pt1) s.bytecnt
  blendInto W cum scale alpha priorW

/-! ## case_pattern -/

abbrev CaseState := ClassState CaseClass

def csReset : CaseState := classReset .nonLetter

def csLearn : List UInt8 → CaseState := classLearn caseClass .nonLetter

def csObserve : CaseState → UInt8 → CaseState := classObserve caseClass

def csAdjust (W : Words) : CaseState → Nat → Cum → Nat → Outcome Cum :=
  classAdjust W caseClass nCase

/-! ## whitespace_phase -/

/-- `PMAX`. -/
def pMax : Nat := 12

def isWs (b : UInt8) : Bool := b = 0x20 || b = 0x09 || b = 0x0A || b = 0x0D

structure WsState where
  bytecnt : Counter Nat UInt8
  phase : Nat

def wsReset : WsState := ⟨.zero, 0⟩

/-- `if (is_ws(b)) phase = 0; else phase++` on an `int`. -/
def nextPhase (phase : Nat) (b : UInt8) : Outcome Nat :=
  if isWs b then pure 0 else if phase + 1 < 2 ^ 31 then pure (phase + 1) else throw .overflow

/-- `p` of `ws_learn` and `ws_adjust`. -/
def cappedPhase (phase : Nat) : Nat := if phase < pMax then phase else pMax

def wsLearn (corpus : List UInt8) : Outcome WsState :=
  corpus.foldlM (fun s b => do
    let bytecnt := s.bytecnt.bump (cappedPhase s.phase) b
    return ⟨bytecnt, ← nextPhase s.phase b⟩) wsReset

def wsObserve (s : WsState) (b : UInt8) : Outcome WsState := do
  return { s with phase := ← nextPhase s.phase b }

def wsAdjust (W : Words) (s : WsState) (alpha : Nat) (cum : Cum) (scale : Nat) : Outcome Cum := do
  let p := cappedPhase s.phase
  let priorW ← forBytes fun b => part W scale (s.bytecnt.cnt p b) (s.bytecnt.tot p) (scale / 256)
  blendInto W cum scale alpha priorW

/-! ## Channels -/

inductive State
  | byteType (s : ByteTypeState)
  | bigramType (s : BigramState)
  | casePattern (s : CaseState)
  | whitespacePhase (s : WsState)

def State.reset : State → State
  | .byteType _ => .byteType btReset
  | .bigramType _ => .bigramType bgReset
  | .casePattern _ => .casePattern csReset
  | .whitespacePhase _ => .whitespacePhase wsReset

def State.learn (corpus : List UInt8) : State → Outcome State
  | .byteType _ => return .byteType (btLearn corpus)
  | .bigramType _ => return .bigramType (bgLearn corpus)
  | .casePattern _ => return .casePattern (csLearn corpus)
  | .whitespacePhase _ => return .whitespacePhase (← wsLearn corpus)

def State.observe (b : UInt8) : State → Outcome State
  | .byteType s => return .byteType (btObserve s b)
  | .bigramType s => return .bigramType (bgObserve s b)
  | .casePattern s => return .casePattern (csObserve s b)
  | .whitespacePhase s => return .whitespacePhase (← wsObserve s b)

/-- A channel as the `aux_*_new` functions make it. -/
structure AuxChannel where
  alphaQ16 : Nat
  state : State

/-- A channel of its own, or what `aux_combo_new` makes of several. -/
inductive Channel
  | single (ch : AuxChannel)
  | combo (chs : List AuxChannel)

/-- `aux_combo_new` keeps the first eight. -/
def auxComboNew (chs : List AuxChannel) : Channel := .combo (chs.take 8)

namespace AuxChannel

def adjust (W : Words) (ch : AuxChannel) (cum : Cum) (scale : Nat) : Outcome Cum :=
  match ch.state with
  | .byteType s => btAdjust W s ch.alphaQ16 cum scale
  | .bigramType s => bgAdjust W s ch.alphaQ16 cum scale
  | .casePattern s => csAdjust W s ch.alphaQ16 cum scale
  | .whitespacePhase s => wsAdjust W s ch.alphaQ16 cum scale

end AuxChannel

namespace Channel

def children : Channel → List AuxChannel
  | .single ch => [ch]
  | .combo chs => chs

/-- The children as a call leaves them. -/
def mapChildren (f : State → Outcome State) : Channel → Outcome Channel
  | .single ch => return .single { ch with state := ← f ch.state }
  | .combo chs => return .combo (← chs.mapM fun ch => return { ch with state := ← f ch.state })

def reset (c : Channel) : Outcome Channel := c.mapChildren fun s => pure s.reset

def learn (corpus : List UInt8) (c : Channel) : Outcome Channel := c.mapChildren (State.learn corpus)

def observe (b : UInt8) (c : Channel) : Outcome Channel := c.mapChildren (State.observe b)

def adjust (W : Words) (c : Channel) (cum : Cum) (scale : Nat) : Outcome Cum :=
  c.children.foldlM (fun cum ch => ch.adjust W cum scale) cum

end Channel

/-- A call on a channel between two `adjust`s. -/
inductive Call
  | learn (corpus : List UInt8)
  | reset
  | observe (b : UInt8)

def Call.run (c : Channel) : Call → Outcome Channel
  | .learn corpus => c.learn corpus
  | .reset => c.reset
  | .observe b => c.observe b

def Call.isObserve : Call → Bool
  | .observe _ => true
  | _ => false

end Bcb.Aux
