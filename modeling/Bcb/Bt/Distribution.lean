import Bcb.Bt.Reader
import Bcb.RangeCoder.Defs

namespace Bcb.Bt

open RangeCoder (Cum)

structure BtLevel where
  dmin : Nat
  dmax : Nat
  wint : Nat

/-- `LEVELS`. -/
def levels : List BtLevel :=
  [⟨1, 2, 230⟩, ⟨3, 4, 333⟩, ⟨5, 8, 384⟩, ⟨9, 12, 435⟩, ⟨13, 16, 384⟩, ⟨17, 24, 282⟩]

/-- The bytes in the order of the loops over `b`. -/
def allBytes : List UInt8 := (List.range 256).map UInt8.ofNat

/-- The table with the given widths, summed in `uint32_t`. -/
def cumOf (w : UInt8 → Nat) : Cum
  | 0 => 0
  | b + 1 => (cumOf w b + w (UInt8.ofNat b)) % 2 ^ 32

/-- An entry of `act_n`, `act_total`, `act_l0`, `act_p0` and `act_freq`. -/
structure Act where
  n : Nat
  total : UInt32
  l0 : Int
  p0 : Int
  freq : UInt8 → UInt32

/-- A byte met twice in a chain keeps its last count. -/
def actFreq (chain : List BtEntry) : UInt8 → UInt32 :=
  chain.foldl (fun f e => Function.update f e.nextByte e.freq) (fun _ => 0)

/-- `obs`, with `seen` as its membership. -/
def observe (obs : List UInt8) (chain : List BtEntry) : List UInt8 :=
  chain.foldl (fun obs e => if e.nextByte ∈ obs then obs else obs ++ [e.nextByte]) obs

/-- `int ii = (int)q; if(ii>=PRES) ii=PRES-1`. -/
def confIndex (B : Build) (q : Int) : Int := min (toInt32 q) (B.pres - 1)

def act (B : Build) (luts : Bool) (n : Nat) (total : UInt32) (chain : List BtEntry) :
    Outcome Act := do
  let d : Int := (total + 256).toNat
  let q ← i64Div B.pres d
  let c ← readConfLog2 B luts (confIndex B q)
  let l0 ← i64 (expLog2 n + c)
  let p0 ← i64Div pscale d
  return ⟨n, total, l0, p0, actFreq chain⟩

/-- `l` and `p` of an active context for a byte. -/
def actTerm (B : Build) (luts : Bool) (b : UInt8) (a : Act) : Outcome (Int × Int) :=
  if a.freq b = 0 then pure (a.l0, a.p0)
  else do
    let f : Int := (a.freq b).toNat
    let total : Int := a.total.toNat
    let q ← i64Div (← i64 (f * B.pres)) total
    let c ← readConfLog2 B luts (confIndex B q)
    let l ← i64 (expLog2 a.n + c)
    let p ← i64Div (← i64 (f * pscale)) total
    return (l, p)

/-- The maximum from `INT64_MIN` on. -/
def maxL (terms : List (Int × Int)) : Int := terms.foldl (fun m t => max m t.1) (-2 ^ 63)

/-- `num += w*p; den += w` with `w = exp2_w(l - max_l)`. -/
def weighTerm (B : Build) (luts : Bool) (max : Int) (s t : Int × Int) : Outcome (Int × Int) := do
  let w ← exp2W B luts (← i64 (t.1 - max))
  let num ← i64 (s.1 + (← i64 (w * t.2)))
  let den ← i64 (s.2 + w)
  return (num, den)

/-- The weighted average of the terms, `none` without weight. -/
def weigh (B : Build) (luts : Bool) (terms : List (Int × Int)) : Outcome (Option Int) := do
  let (num, den) ← terms.foldlM (weighTerm B luts (maxL terms)) (0, 0)
  if 0 < den then return some (← i64Div num den) else return none

/-- `ws` and `wt`. -/
abbrev Sums := UInt8 → Int × Int

/-- `ws[b]+=x; wt[b]+=y`. -/
def addAt (b : UInt8) (x y : Int) (s : Sums) : Outcome Sums := do
  let ws ← i64 ((s b).1 + x)
  let wt ← i64 ((s b).2 + y)
  return Function.update s b (ws, wt)

/-- `ws[b]+=W*def_lv; wt[b]+=W` for every byte, where there is a default. -/
def addDefault (wint : Nat) (deflt : Option Int) (s : Sums) : Outcome Sums :=
  match deflt with
  | some v => do
    let x ← i64 (wint * v)
    allBytes.foldlM (fun s b => addAt b x wint s) s
  | none => pure s

/-- `ws[b]-=W*def_lv; wt[b]-=W`. -/
def dropDefault (wint : Nat) (deflt : Option Int) (b : UInt8) (s : Sums) : Outcome Sums :=
  match deflt with
  | some v => do
    let x ← i64 (wint * v)
    addAt b (-x) (-wint) s
  | none => pure s

/-- `ws[b]+=W*prob_lv; wt[b]+=W`. -/
def addOwn (wint : Nat) (prob : Option Int) (b : UInt8) (s : Sums) : Outcome Sums :=
  match prob with
  | some v => do
    let x ← i64 (wint * v)
    addAt b x wint s
  | none => pure s

/-- Replaces the default of an observed byte by its own average. -/
def observed (B : Build) (luts : Bool) (wint : Nat) (acts : List Act) (deflt : Option Int)
    (s : Sums) (b : UInt8) : Outcome Sums := do
  let terms ← acts.mapM (actTerm B luts b)
  let prob ← weigh B luts terms
  let s ← dropDefault wint deflt b s
  addOwn wint prob b s

/-- Pass A of a level: the active contexts, the longest first, and the bytes they know. -/
def scanLevel (B : Build) (luts : Bool) (r : BtV3Reader) :
    List Nat → List Act × List UInt8 → Outcome (List Act × List UInt8)
  | [], st => pure st
  | n :: ns, (acts, obs) => do
    match ← activeAt B r n with
    | none => scanLevel B luts r ns (acts, obs)
    | some (cc, chain) =>
      let a ← act B luts n cc.totalFreq chain
      scanLevel B luts r ns (acts ++ [a], observe obs chain)

/-- `for (n=start; n>=dmin; n--)`. -/
def scanOrder (dmin start : Nat) : List Nat := (List.range' dmin (start + 1 - dmin)).reverse

/-- Pass B of a level. -/
def combineLevel (B : Build) (luts : Bool) (wint : Nat) (acts : List Act) (obs : List UInt8)
    (s : Sums) : Outcome Sums :=
  if acts = [] then pure s
  else do
    let deflt ← weigh B luts (acts.map fun a => (a.l0, a.p0))
    let s ← addDefault wint deflt s
    obs.foldlM (observed B luts wint acts deflt) s

def distLevel (B : Build) (luts : Bool) (r : BtV3Reader) (s : Sums) (lv : BtLevel) :
    Outcome Sums := do
  let start := min r.window.bytes.length lv.dmax
  let (acts, obs) ← scanLevel B luts r (scanOrder lv.dmin start) ([], [])
  combineLevel B luts lv.wint acts obs s

/-- `wt[b]>0 ? ws[b]/wt[b] : PSCALE/256`. -/
def meanProb (s : Int × Int) : Outcome Int :=
  if 0 < s.2 then i64Div s.1 s.2 else pure (pscale / 256)

/-- `prob`, clamped to `1..PSCALE`. -/
def clampProb (s : Int × Int) : Outcome Int := do
  let prob ← meanProb s
  return min (max prob 1) pscale

/-- The probabilities of the bytes, in their order. -/
def probs (B : Build) (luts : Bool) (r : BtV3Reader) : Outcome (List Int) := do
  if r.window.bytes = [] then return allBytes.map fun _ => (pscale / 256 : Int)
  let s ← levels.foldlM (distLevel B luts r) (fun _ => (0, 0))
  allBytes.mapM fun b => clampProb (s b)

/-- The width of a byte of probability `prob` out of `s`. -/
def scaleProb (scale : Nat) (s prob : Int) : Outcome Nat := do
  let num ← i64 ((← i64 (950 * scale)) * prob)
  let w ← i64 ((← i64Div num (← i64 (1000 * s))) + 50 * scale / (1000 * 256))
  return (max w 1).toNat % 2 ^ 32

def btV3DistributionR (B : Build) (luts : Bool) (r : BtV3Reader) (scale : Nat) : Outcome Cum := do
  let ps ← probs B luts r
  let s ← ps.foldlM (fun s p => i64 (s + p)) (0 : Int)
  if s ≤ 0 then
    return fun b => if b < 256 then b * (scale / 256) % 2 ^ 32 else scale
  let ws ← ps.mapM (scaleProb scale s)
  return cumOf fun b => ws.getD b.toNat 0

end Bcb.Bt
