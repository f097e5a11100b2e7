import Bcb.Bt.Checked
import Bcb.Codec.Rotation
import Bcb.RangeCoder.Simulation

/-! The process-wide model that `bcb_prior_cec_bt` hands to a coder, and the codec that does
the same for one instance. -/

namespace Bcb.Codec.Global

open RangeCoder Bt Prior

/-- The globals of `btv3.c` behind `bt_v3_distribution`, and `g_sc_pos`, `g_sc_prev`, `g_sc_cur`.
`g_frozen` is 1 from `bt_v3_attach` on, so that training moves the window alone. -/
structure Globals where
  rd : BtV3Reader
  scPos : Nat
  scPrev : Nat → UInt8
  scCur : Nat → UInt8

/-- `bcb_prior_msg_begin`. -/
def bcbPriorMsgBegin (g : Globals) : Globals :=
  { g with scPos := 0, scPrev := fun _ => 0, scCur := fun _ => 0 }

/-- `memcpy(g_window, s->window, wl)`. -/
def snapshotWindow (s : BtV3Snapshot) : Outcome Window := do
  let bytes ← (List.range (min s.winLen.toNat btMaxDepth)).mapM s.window
  return ⟨bytes.take btMaxDepth, List.length_take_le _ _⟩

/-- A snapshot of another build leaves the globals as they are. -/
def btV3Attach (B : Build) (s : BtV3Snapshot) (g : Globals) : Outcome Globals := do
  if !s.sameBuild B then return g
  let window ← snapshotWindow s
  return { g with rd := {
    pool := s.pool
    ctxPool := s.ctxPool
    ctxSlot := s.ctxSlot
    bloom := s.bloom
    ctxMask := (s.ctxNslots + (2 ^ 64 - 1)) % 2 ^ 64
    window := window } }

theorem ctxMask_eq {n : Nat} (hpos : 0 < n) (hlt : n < 2 ^ 64) :
    (n + (2 ^ 64 - 1)) % 2 ^ 64 = if n = 0 then 0 else n - 1 := by
  rw [if_neg hpos.ne']
  omega

def btV3ResetWindow (g : Globals) : Globals := { g with rd := { g.rd with window := .empty } }

def v3Dist (B : Build) (luts : Bool) (scale : Nat) (g : Globals) : Outcome (Cum × Globals) := do
  let cum ← btV3DistributionR B luts g.rd scale
  return (cum, g)

def v3Train (b : UInt8) (g : Globals) : Outcome Globals :=
  pure { g with rd := { g.rd with window := g.rd.window.push b } }

/-- The row of the landmark at the end of the window, where it sums to the scale. -/
def landmarkRow (p : BcbPrior) (window : Window) (scale : Nat) : Outcome (Option Cum) := do
  if p.lmK ≠ 0 ∧ scale = rcScale ∧ p.lmN ≤ window.bytes.length then
    match ← lmLookup p.toLandmarks (window.last p.lmN) with
    | none => return none
    | some idx =>
      let w ← p.lmCum idx
      return if cumOf w 256 = scale then some (cumOf w) else none
  else return none

def landmarkDist (B : Build) (luts : Bool) (p : BcbPrior) (scale : Nat) (g : Globals) :
    Outcome (Cum × Globals) := do
  match ← landmarkRow p g.rd.window scale with
  | some cum => return (cum, g)
  | none => v3Dist B luts scale g

def structuralDist (p : BcbPrior) (scale : Nat) (g : Globals) : Outcome (Cum × Globals) := do
  let pos := wrapPos p g.scPos
  let w ← p.schemaCum pos
  if (← p.schemaModes pos) ≠ 0 then
    let sh := g.scPrev pos
    return (rowCum scale fun b => w (b - sh), g)
  else return (rowCum scale w, g)

def structuralTrain (p : BcbPrior) (b : UInt8) (g : Globals) : Outcome Globals :=
  let cur := Function.update g.scCur g.scPos b
  let pos := g.scPos + 1
  pure (if p.schemaRec ≤ pos then
    { g with scPos := 0, scPrev := copyRec p g.scPrev cur, scCur := cur }
  else { g with scPos := pos, scCur := cur })

/-- The functions that `bcb_prior_cec_bt` returns. -/
def cecBt (B : Build) (luts : Bool) (p : BcbPrior) : CecBT Globals :=
  if structural p then ⟨structuralDist p, structuralTrain p⟩
  else if p.lmK ≠ 0 then ⟨landmarkDist B luts p, v3Train⟩
  else ⟨v3Dist B luts, v3Train⟩

/-- What `bcb_prior_cec_bt` does to the globals. -/
def bcbPriorCecBt (B : Build) (p : BcbPrior) (g : Globals) : Outcome Globals :=
  if structural p then pure (bcbPriorMsgBegin g) else btV3Attach B p.snap g

/-- The payload of a message coded through the globals, `luts` as `bt_v3_attach` leaves them. -/
def payload (B : Build) (p : BcbPrior) (msg : List UInt8) (g : Globals) :
    Outcome (List UInt8) := do
  let g ← bcbPriorCecBt B p g
  let (comp, _) ← cecCompress (cecBt B true p) (btV3ResetWindow g) msg
  return comp

/-- The payload of a message coded through a fresh codec. -/
def codecPayload (B : Build) (p : BcbPrior) (alloc : Bool) (msg : List UInt8) :
    Outcome (List UInt8) := do
  let (comp, _) ← cecCompress (bcbCodecCecBt B true p) (bcbCodecNew B p alloc) msg
  return comp

/-- The globals and a codec at the same place of the same message. -/
structure Mirror (B : Build) (p : BcbPrior) (g : Globals) (c : BcbCodec) : Prop where
  coherent : Coherent B p c
  rotation : c.sdelta = false
  rd : structural p = false → g.rd = reader p c.window
  pos : structural p = true → g.scPos = c.scPos
  prev : structural p = true → g.scPrev = c.scPrev
  cur : structural p = true → g.scCur = c.scCur

variable {B : Build} {im : Image} {p : BcbPrior} {g : Globals} {c : BcbCodec}

theorem Mirror.of_bare (h : Mirror B p g c) {c' : BcbCodec} (hc : Coherent B p c')
    (hbare : bare c' = bare c) : Mirror B p g c' := by
  have hfields := congrArg (fun c => (c.window, c.scPos, c.scPrev, c.scCur, c.sdelta)) hbare
  simp only [bare, Prod.mk.injEq] at hfields
  obtain ⟨hwin, hpos, hprev, hcur, hsd⟩ := hfields
  refine ⟨hc, hsd.trans h.rotation, ?_, ?_, ?_, ?_⟩
  · intro hs
    rw [hwin]
    exact h.rd hs
  · exact fun hs => (h.pos hs).trans hpos.symm
  · exact fun hs => (h.prev hs).trans hprev.symm
  · exact fun hs => (h.cur hs).trans hcur.symm

theorem Mirror.record (h : Mirror B p g c) (hs : structural p = true) (scale : Nat) :
    Alike (fun x y => x.1 = y.1 ∧ Mirror B p x.2 y.2) (structuralDist p scale g)
      (codecDist B true p scale c) := by
  have hdist : codecDist B true p scale c =
      (structuralDist p scale g >>= fun x => pure (x.1, c)) := by
    simp only [codecDist, hs, if_true, Codec.structuralDist, h.rotation, Bool.false_eq_true,
      if_false, structuralDist, h.pos hs, h.prev hs]
    cases p.schemaCum (wrapPos p c.scPos) with
    | error e => rfl
    | ok w =>
      cases p.schemaModes (wrapPos p c.scPos) with
      | error e => rfl
      | ok m =>
        simp only [ok_bind]
        split_ifs <;> rfl
  have hstay : ∀ x : Cum × Globals, structuralDist p scale g = .ok x → x.2 = g := by
    intro x hx
    obtain ⟨w, -, hx⟩ := bind_eq_ok.1 hx
    obtain ⟨m, -, hx⟩ := bind_eq_ok.1 hx
    split_ifs at hx
    · rw [← Except.ok.inj hx]
    · rw [← Except.ok.inj hx]
  rw [hdist]
  cases hx : structuralDist p scale g with
  | error e => exact .error e
  | ok x =>
    refine .ok ⟨rfl, ?_⟩
    rw [hstay x hx]
    exact h

theorem Mirror.bt (h : Mirror B p g c) (hs : structural p = false) (scale : Nat) :
    Alike (fun x y => x.1 = y.1 ∧ Mirror B p x.2 y.2) (v3Dist B true scale g)
      (btDist B true p c scale) := by
  have hplain : btDist B true p (bare c) scale = (v3Dist B true scale g).map
      fun x => (x.1, bare c) := by
    have hnone : (bare c).distcache = none := rfl
    have hwin : (bare c).window = c.window := rfl
    simp only [btDist, hnone, hwin, v3Dist, h.rd hs]
    cases btV3DistributionR B true (reader p c.window) scale <;> rfl
  have hmap := (btDist_bare h.coherent scale).trans hplain
  apply (Alike.of_map hmap.symm).with_eq.mono
  rintro ⟨cum, g'⟩ ⟨cum', c'⟩ ⟨heq, hleft, hright⟩
  obtain ⟨rfl, hbare⟩ := Prod.mk.inj heq
  obtain ⟨_, -, hleft⟩ := bind_eq_ok.1 hleft
  obtain ⟨-, rfl⟩ := Prod.mk.inj (Except.ok.inj hleft)
  exact ⟨rfl, h.of_bare (h.coherent.btDist hright) hbare.symm⟩

theorem Mirror.landmark (h : Mirror B p g c) (hs : structural p = false) (scale : Nat) :
    Alike (fun x y => x.1 = y.1 ∧ Mirror B p x.2 y.2) (landmarkDist B true p scale g)
      (codecDist B true p scale c) := by
  have hwin : g.rd.window = c.window := by rw [h.rd hs, reader]
  have hrow : Codec.landmarkDist p c scale = landmarkRow p g.rd.window scale := by rw [hwin]; rfl
  rw [codecDist, hs, if_neg (by decide), hrow, landmarkDist]
  apply (Alike.of_eq rfl).bind
  rintro o _ rfl
  cases o with
  | some cum => exact .ok ⟨rfl, h⟩
  | none => exact h.bt hs scale

theorem landmarkDist_of_lmK (hk : p.lmK = 0) (scale : Nat) :
    landmarkDist B true p scale g = v3Dist B true scale g := by
  have hrow : landmarkRow p g.rd.window scale = .ok none := by
    rw [landmarkRow, if_neg fun h => h.1 hk]
    rfl
  rw [landmarkDist, hrow, ok_bind]

theorem Mirror.train (h : Mirror B p g c) (hs : structural p = false) (b : UInt8) :
    Alike (Mirror B p) (v3Train b g) (codecTrain p b c) := by
  have hrun : codecTrain p b c = .ok { c with window := c.window.push b } := by
    rw [codecTrain, hs, if_neg (by decide)]
    rfl
  have hstr : structural p = true → False := fun hs' => absurd (hs.symm.trans hs') (by decide)
  rw [hrun]
  refine .ok ⟨h.coherent.train hrun, h.rotation, fun _ => ?_, fun hs' => (hstr hs').elim,
    fun hs' => (hstr hs').elim, fun hs' => (hstr hs').elim⟩
  simp only [h.rd hs]
  rfl

theorem Mirror.trainRecord (h : Mirror B p g c) (hs : structural p = true) (b : UInt8) :
    Alike (Mirror B p) (structuralTrain p b g) (codecTrain p b c) := by
  have hrec := (structural_rec_pos hs).1
  have hact : actualByte p c b = .ok b := by
    rw [actualByte, h.rotation]
    rfl
  have hadv := advance_eq hrec.ne' (h.coherent.pos hs)
  obtain ⟨c', hc', hcur, hpos, hprev, hsd⟩ := codecTrain_structural hs hact
  have hc := h.coherent.train hc'
  have hstr : structural p = false → False := fun hs' => absurd (hs.symm.trans hs') (by decide)
  rw [hc', structuralTrain, h.pos hs, h.prev hs, h.cur hs]
  rw [hadv] at hpos hprev
  by_cases hend : p.schemaRec ≤ c.scPos + 1
  · rw [if_pos hend] at hpos hprev
    simp only [if_pos hend]
    exact .ok ⟨hc, hsd.trans h.rotation, fun hs' => (hstr hs').elim, fun _ => hpos.symm,
      fun _ => hprev.symm, fun _ => hcur.symm⟩
  · rw [if_neg hend] at hpos hprev
    rw [if_neg (Nat.succ_ne_zero _)] at hprev
    simp only [if_neg hend]
    exact .ok ⟨hc, hsd.trans h.rotation, fun hs' => (hstr hs').elim, fun _ => hpos.symm,
      fun _ => hprev.symm, fun _ => hcur.symm⟩

theorem alongside_mirror : Alongside (cecBt B true p) (bcbCodecCecBt B true p) (Mirror B p) := by
  unfold cecBt
  cases hs : structural p with
  | true => exact ⟨fun h => h.record hs rcScale, fun b h => h.trainRecord hs b⟩
  | false =>
    simp only [Bool.false_eq_true, if_false]
    split_ifs with hk
    · exact ⟨fun h => h.landmark hs rcScale, fun b h => h.train hs b⟩
    · refine ⟨fun {g c} h => ?_, fun b h => h.train hs b⟩
      change Alike _ (v3Dist B true rcScale g) _
      rw [← landmarkDist_of_lmK (p := p) (not_not.1 hk)]
      exact h.landmark hs rcScale

theorem btV3Attach_ok (hp : priorParse B im = .ok (some p)) (g : Globals) :
    ∃ w, btV3Attach B p.snap g = .ok { g with rd := reader p w } := by
  obtain ⟨hok, hvalid, slot, mask, -, rfl⟩ := priorParse_some hp
  obtain ⟨hbuild, hval⟩ := btV3Validate_ok hvalid
  obtain ⟨hwindow, hlen⟩ := headerOk_window hok
  obtain ⟨bytes, hbytes⟩ : ∃ bytes, (List.range (min (header im).winLen.toNat btMaxDepth)).mapM
      (snapshot im (header im)).window = .ok bytes := by
    apply mapM_ok
    intro i hi
    rw [List.mem_range] at hi
    exact ⟨_, readByte_ok (by omega)⟩
  obtain ⟨j, hj⟩ := hval.pow
  have hpos : 0 < (snapshot im (header im)).ctxNslots := by
    rw [hj]
    exact Nat.two_pow_pos j
  have hmask := ctxMask_eq hpos (im.le_lt 48 8)
  refine ⟨⟨bytes.take btMaxDepth, List.length_take_le _ _⟩, ?_⟩
  change btV3Attach B (snapshot im (header im)) g = _
  simp only [btV3Attach, hbuild, Bool.not_true, Bool.false_eq_true, if_false, snapshotWindow]
  change ((List.range (min (header im).winLen.toNat btMaxDepth)).mapM
    (snapshot im (header im)).window >>= _) >>= _ = _
  rw [hbytes, ok_bind, hmask]
  rfl

theorem bcbCodecNew_window (hs : structural p = false) (alloc : Bool) :
    (bcbCodecNew B p alloc).window = .empty := by
  simp only [bcbCodecNew, bcbCodecBegin, hs, Bool.false_eq_true, if_false]
  split_ifs <;> rfl

@[simp] theorem bare_new (alloc : Bool) : bare (bcbCodecNew B p alloc) = start p false := by
  rw [bcbCodecNew, bare_begin, start, Bool.and_false]
  cases structural p <;> rfl

theorem mirror_start (hp : priorParse B im = .ok (some p)) (alloc : Bool) (g : Globals) :
    ∃ g', bcbPriorCecBt B p g = .ok g' ∧
      Mirror B p (btV3ResetWindow g') (bcbCodecNew B p alloc) := by
  obtain ⟨⟨hpos, hprev, hcur⟩, hsd⟩ :=
    bare_record (d := start p false) (bare_new (B := B) (p := p) alloc)
  rw [start, Bool.and_false] at hsd
  unfold bcbPriorCecBt
  cases hs : structural p with
  | true =>
    have hstr : structural p = false → False := fun hs' => absurd (hs.symm.trans hs') (by decide)
    exact ⟨_, rfl, .new alloc, hsd, fun hs' => (hstr hs').elim, fun _ => hpos.symm,
      fun _ => hprev.symm, fun _ => hcur.symm⟩
  | false =>
    have hstr : structural p = true → False := fun hs' => absurd (hs.symm.trans hs') (by decide)
    obtain ⟨w, hw⟩ := btV3Attach_ok hp g
    refine ⟨_, hw, .new alloc, hsd, fun _ => ?_, fun hs' => (hstr hs').elim,
      fun hs' => (hstr hs').elim, fun hs' => (hstr hs').elim⟩
    rw [bcbCodecNew_window hs]
    rfl

theorem payload_eq (hp : priorParse B im = .ok (some p)) (alloc : Bool) (msg : List UInt8)
    (g : Globals) : payload B p msg g = codecPayload B p alloc msg := by
  obtain ⟨g', hg', h⟩ := mirror_start hp alloc g
  rw [payload, hg', ok_bind]
  apply Alike.eq
  apply (alongside_mirror.compress msg h).bind
  rintro ⟨comp, g1⟩ ⟨comp', c1⟩ ⟨rfl, -⟩
  exact .ok rfl

end Bcb.Codec.Global
