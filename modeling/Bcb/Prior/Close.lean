import Bcb.Codec.Global
import Bcb.Prior.CountImage
import Bcb.Prior.Registration

/-! `bcb_prior_close` and the model of the process. -/

namespace Bcb.Prior.Shared

open Lib Layout RangeCoder Bt

/-- Where the pointers of `btv3.c` point: nowhere, with the counters as they were left, to tables
of its own, or into an open prior. -/
inductive Model
  | absent (poolUsed ctxUsed ctxNslots : Nat)
  | owned (bt : Table BtEntry) (ctx : Table CtxEntry) (bloom : Nat → UInt8)
  | attached (q : Nat)

/-- The globals of `btv3.c`, whether the LUTs are allocated, and the priors that are open. -/
structure State where
  model : Model
  window : Window
  frozen : Bool
  luts : Bool
  priors : Nat → Option BtV3Snapshot

def State.initial : State := ⟨.absent 0 0 0, .empty, false, false, fun _ => none⟩

/-- A read through `NULL`, or through a prior that is closed. -/
def null {α : Type} : Nat → Outcome α := fun _ => throw .misuse

/-- A prior that is closed. -/
def dangling : BtV3Snapshot := ⟨null, 0, null, 0, null, 0, null, 0, null, 0, 0, 0, 0, 0, 0⟩

/-- `bt_v3_export`, with what `g_window` holds beyond its length. -/
def State.export (B : Build) (m : Memory) (s : State) : BtV3Snapshot :=
  let window i := if i < btMaxDepth then pure (s.window.bytes.getD i (m.window i)) else throw .oob
  let tables : BtV3Snapshot :=
    match s.model with
    | .absent poolUsed ctxUsed ctxNslots =>
      { dangling with poolUsed := poolUsed, ctxUsed := ctxUsed, ctxNslots := ctxNslots }
    | .owned bt ctx bloom => btV3Export B ⟨bt, ctx, bloom, s.window, s.frozen⟩
    | .attached q => (s.priors q).getD dangling
  { tables with
    bloomBytes := B.bloomBits / 8
    window := window
    winLen := s.window.bytes.length
    btEntrySz := btEntrySize
    ctxEntrySz := ctxEntrySize
    maxDepth := btMaxDepth
    bloomBits := B.bloomBits
    pres := B.pres }

/-- `g_ctx_mask`. -/
def State.ctxMask (s : State) : Nat :=
  match s.model with
  | .absent _ _ ctxNslots => ctxNslots - 1
  | .owned _ ctx _ => ctx.mask
  | .attached q => (((s.priors q).getD dangling).ctxNslots + (2 ^ 64 - 1)) % 2 ^ 64

/-- The reader that `bt_v3_distribution` makes of the globals. -/
def State.reader (B : Build) (s : State) : BtV3Reader :=
  let e := s.export B ⟨⟨fun _ _ => 0, fun _ _ => 0⟩, fun _ => 0⟩
  ⟨e.pool, e.ctxPool, e.ctxSlot, e.bloom, s.ctxMask, s.window⟩

/-! ## Uses of the model -/

/-- `bcb_prior_save` of whatever tables are exported, to a file that can be written. -/
def saveSnapshot (m : Memory) (r : Registered) (s : BtV3Snapshot) :
    Outcome (Option (List UInt8)) := do
  let h := saveHeader r s
  let window ← (List.range s.maxDepth).mapM s.window
  let pool ← (List.range s.poolUsed).mapM fun i => btEntryBytes (m.bt i) <$> s.pool i
  let ctxPool ← (List.range s.ctxUsed).mapM fun i => ctxEntryBytes (m.ctx i) <$> s.ctxPool i
  let slots ← (List.range s.ctxNslots).mapM fun i => intBytes <$> s.ctxSlot i
  let bloom ← (List.range s.bloomBytes).mapM s.bloom
  let l := [(h.offWindow, window), (h.offPool, pool.flatten), (h.offCtxPool, ctxPool.flatten),
    (h.offCtxSlot, slots.flatten), (h.offBloom, bloom),
    (h.offLmCtx, (List.range h.lmK).flatMap fun k => (List.range h.lmN).map (r.lmCtx k)),
    (h.offLmCum, (List.range h.lmK).flatMap fun k => rowBytes (r.lmCum k)),
    (h.offSchemaModes, (List.range h.schemaPos).map r.scModes),
    (h.offSchemaCum, (List.range h.schemaPos).flatMap fun pos => rowBytes (r.scCum pos))]
  return if h.fileSize < 2 ^ 63 then some (putAll 0 (headerBytes h) l) else none

/-- `bt_v3_train`.  Without tables of its own the model has no `g_bt_slot`. -/
def State.train (B : Build) (al : Nat → UpdateAlloc) (b : UInt8) (s : State) : Outcome State :=
  match s.model with
  | .owned bt ctx bloom => do
    let g ← btV3Train B al b ⟨bt, ctx, bloom, s.window, s.frozen⟩
    return { s with model := .owned g.bt g.ctx g.bloom, window := g.window }
  | _ =>
    if s.frozen || s.window.bytes.isEmpty then pure { s with window := s.window.push b }
    else throw .misuse

inductive Use
  | distribution (scale : Nat)
  | train (al : Nat → UpdateAlloc) (b : UInt8)
  | save (m : Memory) (r : Registered)

inductive Output
  | cum (cum : Cum)
  | trained
  | file (file : Option (List UInt8))

def State.use (B : Build) (s : State) : Use → Outcome (Output × State)
  | .distribution scale => do
    let cum ← btV3DistributionR B s.luts (s.reader B) scale
    return (.cum cum, s)
  | .train al b => do
    let s ← s.train B al b
    return (.trained, s)
  | .save m r => do
    let file ← saveSnapshot m r (s.export B m)
    return (.file file, s)

/-- What a sequence of uses returns. -/
def outputs (B : Build) : List Use → State → Outcome (List Output)
  | [], _ => pure []
  | u :: uses, s => do
    let (o, s) ← s.use B u
    return o :: (← outputs B uses s)

/-! ## What else the process does -/

inductive Action
  | init (pool : Nat → BtEntry) (ctxPool : Nat → CtxEntry)
  | free
  | freeze (on : Bool)
  | resetWindow
  | setWindow (w : Window)
  | use (u : Use)
  | openPrior (q : Nat) (im : Image)
  | attach (q : Nat)
  | detach
  | close (p : Nat)

/-- The counters that stay when the pointers go. -/
def State.counters (s : State) : Nat × Nat × Nat :=
  match s.model with
  | .absent poolUsed ctxUsed ctxNslots => (poolUsed, ctxUsed, ctxNslots)
  | .owned bt ctx _ => (bt.used, ctx.used, ctx.nslots)
  | .attached q =>
    let snap := (s.priors q).getD dangling
    (snap.poolUsed, snap.ctxUsed, snap.ctxNslots)

def btV3Free (s : State) : State :=
  let (poolUsed, ctxUsed, ctxNslots) := s.counters
  { s with model := .absent poolUsed ctxUsed ctxNslots, frozen := false, luts := false }

def btV3Detach (s : State) : State :=
  { s with model := .absent 0 0 s.counters.2.2, frozen := false, luts := false }

def bcbPriorClose (p : Nat) (s : State) : State :=
  { btV3Detach s with priors := Function.update s.priors p none }

def State.act (B : Build) (s : State) : Action → Outcome State
  | .init pool ctxPool =>
    let g := btV3Init B pool ctxPool
    pure { s with
      model := .owned g.bt g.ctx g.bloom
      window := g.window
      frozen := false
      luts := true }
  | .free => pure (btV3Free s)
  | .freeze on => pure { s with frozen := on }
  | .resetWindow => pure { s with window := .empty }
  | .setWindow w => pure { s with window := w }
  | .use u => Prod.snd <$> s.use B u
  | .openPrior q im => do
    match s.priors q with
    | some _ => throw .misuse
    | none =>
      match ← priorParse B im with
      | none => return s
      | some p => return { s with priors := Function.update s.priors q (some p.snap), luts := true }
  | .attach q =>
    match s.priors q with
    | none => throw .misuse
    | some snap => do
      if !snap.sameBuild B then return s
      let window ← Codec.Global.snapshotWindow snap
      return { s with model := .attached q, window := window, frozen := true, luts := true }
  | .detach => pure (btV3Detach s)
  | .close p =>
    match s.priors p with
    | none => throw .misuse
    | some _ => pure (bcbPriorClose p s)

/-- A state that some sequence of calls leads to. -/
inductive Reachable (B : Build) : State → Prop
  | initial : Reachable B .initial
  | act {s s' : State} {a : Action} : Reachable B s → s.act B a = .ok s' → Reachable B s'

variable {B : Build} {s s' : State} {p : Nat} {m : Memory} {r : Registered}

/-! ## Every model that is there can be saved -/

/-- The tables of an open prior lie in its image. -/
structure Readable (B : Build) (s : BtV3Snapshot) : Prop where
  pool : ∀ i < s.poolUsed, ∃ e, s.pool i = .ok e
  ctxPool : ∀ i < s.ctxUsed, ∃ e, s.ctxPool i = .ok e
  ctxSlot : ∀ i < s.ctxNslots, ∃ x, s.ctxSlot i = .ok x
  bloom : ∀ i < B.bloomBits / 8, ∃ x, s.bloom i = .ok x

theorem priorParse_readable {im : Image} {prior : BcbPrior}
    (h : priorParse B im = .ok (some prior)) : Readable B prior.snap := by
  obtain ⟨hok, hvalid, slot, mask, -, rfl⟩ := priorParse_some h
  have hbounds := headerOk_bounds hok
  have hsame := (btV3Validate_ok hvalid).1
  simp only [BtV3Snapshot.sameBuild, Bool.and_eq_true, decide_eq_true_eq] at hsame
  obtain ⟨⟨⟨⟨⟨hbt, hctx⟩, -⟩, -⟩, -⟩, hbloom⟩ := hsame
  have hpool := hbounds.pool
  have hctxPool := hbounds.ctxPool
  change (header im).btEntrySz = 36 at hbt
  change (header im).ctxEntrySz = 40 at hctx
  change (header im).bloomBytes = _ at hbloom
  rw [hbt] at hpool
  rw [hctx] at hctxPool
  constructor
  · intro i hi
    change i < (header im).poolUsed at hi
    refine ⟨btEntryAt im ((header im).offPool + btEntrySize * i), ?_⟩
    change readBtEntry im ((header im).offPool + btEntrySize * i) = _
    rw [readBtEntry, im.region_ok (by rw [btEntrySize]; omega)]
    rfl
  · intro i hi
    change i < (header im).ctxUsed at hi
    refine ⟨ctxEntryAt im ((header im).offCtxPool + ctxEntrySize * i), ?_⟩
    change readCtxEntry im ((header im).offCtxPool + ctxEntrySize * i) = _
    rw [readCtxEntry, im.region_ok (by rw [ctxEntrySize]; omega)]
    rfl
  · intro i hi
    change i < (header im).ctxNslots at hi
    have hslot := hbounds.ctxSlot
    refine ⟨im.i32 ((header im).offCtxSlot + 4 * i), ?_⟩
    change readInt im ((header im).offCtxSlot + 4 * i) = _
    rw [readInt, im.region_ok (by omega)]
    rfl
  · intro i hi
    have hregion := hbounds.bloom
    exact ⟨_, readByte_ok (by omega)⟩

/-- What every reachable state satisfies. -/
structure Sound (B : Build) (s : State) : Prop where
  owned : ∀ bt ctx bloom, s.model = .owned bt ctx bloom → bt.used ≤ bt.cap ∧ ctx.used ≤ ctx.cap
  attached : ∀ q, s.model = .attached q → ∃ snap, s.priors q = some snap
  readable : ∀ q snap, s.priors q = some snap → Readable B snap

section Table

variable {α : Type} {hash : α → UInt32} {same : α → Bool} {key : UInt32} {t t' : Table α}

theorem rehash_cap {i : Nat} (h : t.rehash hash i = .ok t') : t'.used = t.used ∧ t'.cap = t.cap := by
  obtain ⟨e, -, h⟩ := bind_eq_ok.1 h
  obtain ⟨x, -, h⟩ := bind_eq_ok.1 h
  obtain rfl := Except.ok.inj h
  exact ⟨rfl, rfl⟩

theorem grow_cap {dynamic grown : Bool} {gr : Growth} (hle : t.used ≤ t.cap)
    (h : t.grow dynamic gr hash = .ok (grown, t')) : t'.used ≤ t'.cap := by
  unfold Table.grow at h
  split_ifs at h
  · cases h
    exact hle
  · cases h
    exact hle
  · cases h
    exact hle.trans (Nat.le_mul_of_pos_right _ two_pos)
  · obtain ⟨t1, hrun, h⟩ := bind_eq_ok.1 h
    obtain ⟨-, rfl⟩ := Prod.mk.inj (Except.ok.inj h)
    have hdoubled : t.doubled.used ≤ t.doubled.cap :=
      hle.trans (Nat.le_mul_of_pos_right _ two_pos)
    apply foldlM_inv (P := fun _ t1 => t1.used ≤ t1.cap) hrun hdoubled
    intro _ _ _ t1 t2 h1 hstep
    obtain ⟨hused, hcap⟩ := rehash_cap hstep
    rwa [hused, hcap]

theorem place_cap {dynamic : Bool} {gr : Growth} {n : Nat} {o : Option Hit} (hle : t.used ≤ t.cap)
    (h : t.place dynamic gr hash same key n = .ok (o, t')) :
    t'.used ≤ t'.cap ∧ ∀ x, o = some (.free x) → t'.used < t'.cap := by
  induction n generalizing t with
  | zero => cases h
  | succ n ih =>
    obtain ⟨hit, -, h⟩ := bind_eq_ok.1 h
    cases hit with
    | found i =>
      cases h
      exact ⟨hle, by rintro _ ⟨⟩⟩
    | free x =>
      dsimp only at h
      split_ifs at h with hroom
      · cases h
        exact ⟨hle, fun _ _ => hroom⟩
      · obtain ⟨⟨grown, t1⟩, hgrow, h⟩ := bind_eq_ok.1 h
        have hle1 := grow_cap hle hgrow
        cases grown with
        | false =>
          cases h
          exact ⟨hle1, by rintro _ ⟨⟩⟩
        | true => exact ih hle1 h

end Table

/-- The pools keep within their capacity. -/
def Within (g : Globals) : Prop := g.bt.used ≤ g.bt.cap ∧ g.ctx.used ≤ g.ctx.cap

theorem btUpdate_within {g g' : Globals} {al : UpdateAlloc} {ctx : List UInt8} {b : UInt8}
    (h : Within g) (hrun : btUpdate B al ctx b g = .ok g') :
    Within g' ∧ g'.frozen = g.frozen := by
  unfold btUpdate at hrun
  split_ifs at hrun
  · cases hrun
    exact ⟨h, rfl⟩
  · obtain ⟨⟨o, bt⟩, hcount, hrun⟩ := bind_eq_ok.1 hrun
    have hbt : bt.used ≤ bt.cap := by
      obtain ⟨⟨hit, t⟩, hplace, hcount⟩ := bind_eq_ok.1 hcount
      obtain ⟨hle, hfree⟩ := place_cap h.1 hplace
      cases hit with
      | none =>
        cases hcount
        exact hle
      | some hit =>
        cases hit with
        | found i =>
          cases hcount
          exact hle
        | free x =>
          cases hcount
          exact hfree x rfl
    cases o with
    | none =>
      cases hrun
      exact ⟨⟨hbt, h.2⟩, rfl⟩
    | some new =>
      obtain ⟨⟨o, cs⟩, hget, hrun⟩ := bind_eq_ok.1 hrun
      have hcs : cs.used ≤ cs.cap := by
        obtain ⟨⟨hit, t⟩, hplace, hget⟩ := bind_eq_ok.1 hget
        obtain ⟨hle, hfree⟩ := place_cap h.2 hplace
        cases hit with
        | none =>
          cases hget
          exact hle
        | some hit =>
          cases hit with
          | found i =>
            cases hget
            exact hle
          | free x =>
            dsimp only at hget
            split_ifs at hget
            cases hget
            exact hfree x rfl
      cases o with
      | none =>
        cases hrun
        exact ⟨⟨hbt, hcs⟩, rfl⟩
      | some cc =>
        cases new with
        | none =>
          cases hrun
          exact ⟨⟨hbt, hcs⟩, rfl⟩
        | some j =>
          cases hrun
          exact ⟨⟨hbt, hcs⟩, rfl⟩

theorem btV3Train_within {g g' : Globals} {al : Nat → UpdateAlloc} {b : UInt8} (h : Within g)
    (hrun : btV3Train B al b g = .ok g') : Within g' ∧ g'.frozen = g.frozen := by
  unfold btV3Train at hrun
  split_ifs at hrun
  · cases hrun
    exact ⟨h, rfl⟩
  · obtain ⟨g1, hups, hrun⟩ := bind_eq_ok.1 hrun
    obtain rfl := Except.ok.inj hrun
    have hwithin : Within g1 ∧ g1.frozen = g.frozen :=
      foldlM_inv (P := fun _ g1 => Within g1 ∧ g1.frozen = g.frozen) hups ⟨h, rfl⟩
        fun _ _ _ _ _ h1 hstep =>
          (btUpdate_within h1.1 hstep).imp_right fun hfrozen => hfrozen.trans h1.2
    exact hwithin

theorem Sound.congr (h : Sound B s) (hmodel : s'.model = s.model) (hpriors : s'.priors = s.priors) :
    Sound B s' :=
  ⟨hmodel ▸ h.owned, fun q hq => hpriors ▸ h.attached q (hmodel ▸ hq), hpriors ▸ h.readable⟩

theorem Sound.absent {poolUsed ctxUsed ctxNslots : Nat}
    (hmodel : s.model = .absent poolUsed ctxUsed ctxNslots)
    (h : ∀ q snap, s.priors q = some snap → Readable B snap) : Sound B s :=
  ⟨fun _ _ _ hm => (by rw [hmodel] at hm; cases hm), fun _ hm => (by rw [hmodel] at hm; cases hm), h⟩

theorem Sound.train {al : Nat → UpdateAlloc} {b : UInt8} (h : Sound B s)
    (hrun : s.train B al b = .ok s') : Sound B s' := by
  unfold State.train at hrun
  cases hmodel : s.model with
  | owned bt ctx bloom =>
    simp only [hmodel] at hrun
    obtain ⟨g, hg, hrun⟩ := bind_eq_ok.1 hrun
    obtain rfl := Except.ok.inj hrun
    have hwithin := btV3Train_within (g := ⟨bt, ctx, bloom, s.window, s.frozen⟩)
      (h.owned bt ctx bloom hmodel) hg |>.1
    refine ⟨?_, fun q hq => (by cases hq), h.readable⟩
    rintro _ _ _ ⟨⟩
    exact hwithin
  | absent poolUsed ctxUsed ctxNslots =>
    simp only [hmodel] at hrun
    split_ifs at hrun
    obtain rfl := Except.ok.inj hrun
    exact h.congr hmodel.symm rfl
  | attached q =>
    simp only [hmodel] at hrun
    split_ifs at hrun
    obtain rfl := Except.ok.inj hrun
    exact h.congr hmodel.symm rfl

theorem Sound.use {u : Use} {o : Output} (h : Sound B s) (hrun : s.use B u = .ok (o, s')) :
    Sound B s' := by
  cases u with
  | distribution scale =>
    obtain ⟨cum, -, hrun⟩ := bind_eq_ok.1 hrun
    cases hrun
    exact h
  | train al b =>
    obtain ⟨s1, htrain, hrun⟩ := bind_eq_ok.1 hrun
    cases hrun
    exact h.train htrain
  | save m r =>
    obtain ⟨file, -, hrun⟩ := bind_eq_ok.1 hrun
    cases hrun
    exact h

theorem Sound.openPrior {q : Nat} {snap : BtV3Snapshot} (h : Sound B s) (hq : s.priors q = none)
    (hread : Readable B snap) :
    Sound B { s with priors := Function.update s.priors q (some snap), luts := true } := by
  refine ⟨h.owned, fun q' hq' => ?_, fun q' snap' hsnap => ?_⟩
  · obtain ⟨snap', hsnap⟩ := h.attached q' hq'
    have hne : q' ≠ q := by
      rintro rfl
      rw [hq] at hsnap
      cases hsnap
    exact ⟨snap', (Function.update_of_ne hne _ _).trans hsnap⟩
  · dsimp only at hsnap
    rw [Function.update_apply] at hsnap
    split_ifs at hsnap
    · obtain rfl := Option.some.inj hsnap
      exact hread
    · exact h.readable q' snap' hsnap

theorem Sound.attach {q : Nat} {snap : BtV3Snapshot} (h : Sound B s) (hq : s.priors q = some snap)
    (w : Window) :
    Sound B { s with model := .attached q, window := w, frozen := true, luts := true } := by
  refine ⟨fun _ _ _ hm => (by cases hm), ?_, h.readable⟩
  rintro _ ⟨⟩
  exact ⟨snap, hq⟩

theorem Sound.close (h : Sound B s) (p : Nat) : Sound B (bcbPriorClose p s) := by
  refine .absent rfl fun q snap hsnap => ?_
  change Function.update s.priors p none q = some snap at hsnap
  rw [Function.update_apply] at hsnap
  split_ifs at hsnap
  exact h.readable q snap hsnap

theorem Sound.act {a : Action} (h : Sound B s) (hrun : s.act B a = .ok s') : Sound B s' := by
  cases a with
  | init pool ctxPool =>
    obtain rfl := Except.ok.inj hrun
    refine ⟨?_, fun q hq => (by cases hq), h.readable⟩
    rintro _ _ _ ⟨⟩
    exact ⟨Nat.zero_le _, Nat.zero_le _⟩
  | free =>
    obtain rfl := Except.ok.inj hrun
    exact .absent rfl h.readable
  | freeze on =>
    obtain rfl := Except.ok.inj hrun
    exact h.congr rfl rfl
  | resetWindow =>
    obtain rfl := Except.ok.inj hrun
    exact h.congr rfl rfl
  | setWindow w =>
    obtain rfl := Except.ok.inj hrun
    exact h.congr rfl rfl
  | use u =>
    obtain ⟨⟨o, s1⟩, huse, rfl⟩ := map_eq_ok.1 hrun
    exact h.use huse
  | openPrior q im =>
    simp only [State.act] at hrun
    cases hq : s.priors q with
    | some snap =>
      rw [hq] at hrun
      cases hrun
    | none =>
      rw [hq] at hrun
      obtain ⟨o, hparse, hrun⟩ := bind_eq_ok.1 hrun
      cases o with
      | none =>
        obtain rfl := Except.ok.inj hrun
        exact h
      | some prior =>
        obtain rfl := Except.ok.inj hrun
        exact h.openPrior hq (priorParse_readable hparse)
  | attach q =>
    simp only [State.act] at hrun
    cases hq : s.priors q with
    | none =>
      rw [hq] at hrun
      cases hrun
    | some snap =>
      rw [hq] at hrun
      dsimp only at hrun
      split_ifs at hrun
      · obtain rfl := Except.ok.inj hrun
        exact h
      · obtain ⟨window, -, hrun⟩ := bind_eq_ok.1 hrun
        obtain rfl := Except.ok.inj hrun
        exact h.attach hq window
  | detach =>
    obtain rfl := Except.ok.inj hrun
    exact .absent rfl h.readable
  | close p =>
    simp only [State.act] at hrun
    cases hp : s.priors p with
    | none =>
      rw [hp] at hrun
      cases hrun
    | some snap =>
      rw [hp] at hrun
      obtain rfl := Except.ok.inj hrun
      exact h.close p

theorem Reachable.sound (h : Reachable B s) : Sound B s := by
  induction h with
  | initial => exact .absent rfl fun _ _ hq => (by cases hq)
  | act _ hrun ih => exact ih.act hrun

/-! ## A model that is there, and none -/

theorem mapM_exists {α β : Type} {n : Nat} {f : Nat → Outcome α} {g : Nat → α → β}
    (h : ∀ i < n, ∃ a, f i = .ok a) :
    ∃ l, (List.range n).mapM (fun i => g i <$> f i) = .ok l :=
  mapM_ok fun i hi => by
    obtain ⟨a, ha⟩ := h i (List.mem_range.1 hi)
    exact ⟨g i a, by rw [ha]; rfl⟩

theorem Sound.saves (h : Sound B s) (hmodel : ∀ x y z, s.model ≠ .absent x y z) (m : Memory)
    (r : Registered) : ∃ file, saveSnapshot m r (s.export B m) = .ok file := by
  obtain ⟨hreadable, hdepth, hbytes, hwindow⟩ : Readable B (s.export B m) ∧
      (s.export B m).maxDepth = btMaxDepth ∧ (s.export B m).bloomBytes = B.bloomBits / 8 ∧
      ∀ i < btMaxDepth, ∃ x, (s.export B m).window i = .ok x :=
    ⟨by
      cases hm : s.model with
      | absent x y z => exact absurd hm (hmodel x y z)
      | owned bt ctx bloom =>
        obtain ⟨hbt, hctx⟩ := h.owned bt ctx bloom hm
        have hexport : (s.export B m).pool = bt.read ∧ (s.export B m).poolUsed = bt.used ∧
            (s.export B m).ctxPool = ctx.read ∧ (s.export B m).ctxUsed = ctx.used ∧
            (s.export B m).ctxSlot = ctx.readSlot ∧ (s.export B m).ctxNslots = ctx.nslots ∧
            (s.export B m).bloom = fun i =>
              if i < B.bloomBits / 8 then pure (bloom i) else throw .oob := by
          simp only [State.export, hm]
          exact ⟨rfl, rfl, rfl, rfl, rfl, rfl, rfl⟩
        obtain ⟨h1, h2, h3, h4, h5, h6, h7⟩ := hexport
        constructor
        · rw [h1, h2]
          exact fun i hi => ⟨_, if_pos (hi.trans_le hbt)⟩
        · rw [h3, h4]
          exact fun i hi => ⟨_, if_pos (hi.trans_le hctx)⟩
        · rw [h5, h6]
          exact fun i hi => ⟨_, if_pos hi⟩
        · rw [h7]
          exact fun i hi => ⟨_, if_pos hi⟩
      | attached q =>
        obtain ⟨snap, hq⟩ := h.attached q hm
        have hsnap := h.readable q snap hq
        have hexport : (s.export B m).pool = snap.pool ∧ (s.export B m).poolUsed = snap.poolUsed ∧
            (s.export B m).ctxPool = snap.ctxPool ∧ (s.export B m).ctxUsed = snap.ctxUsed ∧
            (s.export B m).ctxSlot = snap.ctxSlot ∧ (s.export B m).ctxNslots = snap.ctxNslots ∧
            (s.export B m).bloom = snap.bloom := by
          simp [State.export, hm, hq]
        obtain ⟨h1, h2, h3, h4, h5, h6, h7⟩ := hexport
        constructor
        · rw [h1, h2]
          exact hsnap.pool
        · rw [h3, h4]
          exact hsnap.ctxPool
        · rw [h5, h6]
          exact hsnap.ctxSlot
        · rw [h7]
          exact hsnap.bloom, rfl, rfl, fun i hi => ⟨_, if_pos hi⟩⟩
  obtain ⟨l1, h1⟩ := mapM_ok (l := List.range (s.export B m).maxDepth) (f := (s.export B m).window)
    fun i hi => hwindow i (hdepth ▸ List.mem_range.1 hi)
  obtain ⟨l2, h2⟩ := mapM_exists (g := fun i => btEntryBytes (m.bt i)) hreadable.pool
  obtain ⟨l3, h3⟩ := mapM_exists (g := fun i => ctxEntryBytes (m.ctx i)) hreadable.ctxPool
  obtain ⟨l4, h4⟩ := mapM_exists (g := fun _ => intBytes) hreadable.ctxSlot
  obtain ⟨l5, h5⟩ := mapM_ok (l := List.range (s.export B m).bloomBytes) (f := (s.export B m).bloom)
    fun i hi => hreadable.bloom i (hbytes ▸ List.mem_range.1 hi)
  rw [saveSnapshot, h1, ok_bind, h2, ok_bind, h3, ok_bind, h4, ok_bind, h5, ok_bind]
  exact ⟨_, rfl⟩

/-- No pointer of the model leads anywhere. -/
def State.NoModel (s : State) : Prop := ∃ x y z, s.model = .absent x y z

theorem bloomBytes_pos (B : Build) : 0 < B.bloomBits / 8 := by
  have hle : 2 ^ 3 ≤ B.bloomBits := Nat.pow_le_pow_right (by norm_num) B.three_le_bloomLog
  omega

theorem save_noModel (h : s.NoModel) (m : Memory) (r : Registered) :
    saveSnapshot m r (s.export B m) = .error .misuse := by
  obtain ⟨x, y, z, hm⟩ := h
  have hread : ∀ {α β : Type} (n : Nat) (g : Nat → α → β),
      (List.range n).mapM (fun i => g i <$> (null i : Outcome α)) = .ok [] ∨
      (List.range n).mapM (fun i => g i <$> (null i : Outcome α)) = .error .misuse := by
    intro α β n g
    cases n with
    | zero => exact .inl rfl
    | succ n =>
      rw [List.range_succ_eq_map, List.mapM_cons]
      exact .inr rfl
  have hbloom : (List.range (B.bloomBits / 8)).mapM (null : Nat → Outcome UInt8) =
      .error .misuse := by
    obtain ⟨n, hn⟩ := Nat.exists_eq_succ_of_ne_zero (bloomBytes_pos B).ne'
    rw [hn, List.range_succ_eq_map, List.mapM_cons]
    rfl
  obtain ⟨window, hwindow⟩ := mapM_ok (l := List.range btMaxDepth) (f := (s.export B m).window)
    fun i hi => ⟨_, if_pos (List.mem_range.1 hi)⟩
  have hexport : s.export B m = { dangling with
      poolUsed := x
      ctxUsed := y
      ctxNslots := z
      bloomBytes := B.bloomBits / 8
      window := (s.export B m).window
      winLen := s.window.bytes.length
      btEntrySz := btEntrySize
      ctxEntrySz := ctxEntrySize
      maxDepth := btMaxDepth
      bloomBits := B.bloomBits
      pres := B.pres } := by
    simp only [State.export, hm]
  rw [hexport, saveSnapshot]
  simp only [hwindow, ok_bind]
  rcases hread x fun i => btEntryBytes (m.bt i) with h1 | h1
  · rcases hread y fun i => ctxEntryBytes (m.ctx i) with h2 | h2
    · rcases hread z fun _ => intBytes with h3 | h3
      · simp only [dangling, h1, h2, h3, hbloom, ok_bind, error_bind]
      · simp only [dangling, h1, h2, h3, ok_bind, error_bind]
    · simp only [dangling, h1, h2, ok_bind, error_bind]
  · simp only [dangling, h1, error_bind]

theorem distribution_noModel (h : s.NoModel) (luts : Bool) (scale : Nat)
    (hw : s.window.bytes ≠ []) :
    btV3DistributionR B luts (s.reader B) scale = .error .misuse := by
  obtain ⟨x, y, z, hm⟩ := h
  have hactive : ∀ n, activeAt B (s.reader B) n = .error .misuse := by
    intro n
    simp only [activeAt, bloomChkRd, bloomBit, State.reader, State.export, hm, dangling, null,
      throw_bind]
    rfl
  have hlevel : ∀ st, distLevel B luts (s.reader B) st ⟨1, 2, 230⟩ = .error .misuse := by
    intro st
    have hpos : 0 < s.window.bytes.length := List.length_pos_iff.2 hw
    obtain ⟨n, ns, hns⟩ : ∃ n ns,
        scanOrder 1 (min (s.reader B).window.bytes.length 2) = n :: ns := by
      apply List.exists_cons_of_ne_nil
      change scanOrder 1 (min s.window.bytes.length 2) ≠ []
      rw [scanOrder, Ne, List.reverse_eq_nil_iff, List.range'_eq_nil_iff]
      omega
    simp only [distLevel, hns, scanLevel, hactive, error_bind]
  have hprobs : probs B luts (s.reader B) = .error .misuse := by
    have hne : ¬ (s.reader B).window.bytes = [] := hw
    simp only [probs, if_neg hne, levels, List.foldlM_cons, hlevel, error_bind]
  rw [btV3DistributionR, hprobs, error_bind]

theorem distribution_empty {s s' : State} (luts luts' : Bool) (scale : Nat)
    (hw : s.window.bytes = []) (hw' : s'.window.bytes = []) :
    btV3DistributionR B luts (s.reader B) scale =
      btV3DistributionR B luts' (s'.reader B) scale := by
  have hprobs : probs B luts (s.reader B) = probs B luts' (s'.reader B) := by
    have h : (s.reader B).window.bytes = [] := hw
    have h' : (s'.reader B).window.bytes = [] := hw'
    simp only [probs, if_pos h, if_pos h']
  rw [btV3DistributionR, btV3DistributionR, hprobs]

/-- Two states without a model that train alike. -/
structure SameVoid (s s' : State) : Prop where
  left : s.NoModel
  right : s'.NoModel
  window : s.window = s'.window
  frozen : s.frozen = s'.frozen

theorem train_noModel (h : s.NoModel) (al : Nat → UpdateAlloc) (b : UInt8) :
    s.train B al b =
      if s.frozen || s.window.bytes.isEmpty then pure { s with window := s.window.push b }
      else throw .misuse := by
  obtain ⟨x, y, z, hm⟩ := h
  simp only [State.train, hm]

theorem SameVoid.use (h : SameVoid s s') (u : Use) :
    (∃ x, s.use B u = .error x ∧ s'.use B u = .error x) ∨
    ∃ o t t', s.use B u = .ok (o, t) ∧ s'.use B u = .ok (o, t') ∧ SameVoid t t' := by
  cases u with
  | distribution scale =>
    by_cases hw : s.window.bytes = []
    · have heq := distribution_empty (B := B) s.luts s'.luts scale hw (h.window ▸ hw)
      cases hdist : btV3DistributionR B s.luts (s.reader B) scale with
      | error x =>
        left
        refine ⟨x, ?_, ?_⟩
        · rw [State.use, hdist, error_bind]
        · rw [State.use, ← heq, hdist, error_bind]
      | ok cum =>
        right
        refine ⟨.cum cum, s, s', ?_, ?_, h⟩
        · rw [State.use, hdist]
          rfl
        · rw [State.use, ← heq, hdist]
          rfl
    · left
      refine ⟨.misuse, ?_, ?_⟩
      · rw [State.use, distribution_noModel h.left _ _ hw, error_bind]
      · rw [State.use, distribution_noModel h.right _ _ (h.window ▸ hw), error_bind]
  | train al b =>
    rw [State.use, State.use, train_noModel h.left, train_noModel h.right, ← h.window, ← h.frozen]
    split_ifs with hmoves
    · right
      obtain ⟨⟨x, y, z, hm⟩, ⟨x', y', z', hm'⟩, -, hfrozen⟩ := h
      exact ⟨.trained, _, _, rfl, rfl, ⟨x, y, z, hm⟩, ⟨x', y', z', hm'⟩, rfl, rfl⟩
    · left
      exact ⟨.misuse, rfl, rfl⟩
  | save m r =>
    left
    refine ⟨.misuse, ?_, ?_⟩
    · rw [State.use, save_noModel h.left, error_bind]
    · rw [State.use, save_noModel h.right, error_bind]

theorem outputs_error {u : Use} {x : Fault} (h : s.use B u = .error x) (uses : List Use) :
    outputs B (u :: uses) s = .error x := by
  rw [outputs, h]
  rfl

theorem outputs_ok {u : Use} {o : Output} (h : s.use B u = .ok (o, s')) (uses : List Use) :
    outputs B (u :: uses) s = (o :: ·) <$> outputs B uses s' := by
  rw [outputs, h]
  rfl

theorem SameVoid.outputs (h : SameVoid s s') (uses : List Use) :
    outputs B uses s = outputs B uses s' := by
  induction uses generalizing s s' with
  | nil => rfl
  | cons u uses ih =>
    rcases h.use (B := B) u with ⟨x, hx, hx'⟩ | ⟨o, t, t', ho, ho', ht⟩
    · rw [outputs_error hx, outputs_error hx']
    · rw [outputs_ok ho, outputs_ok ho', ih ht]

theorem bcbPriorClose_noModel (p : Nat) (s : State) : (bcbPriorClose p s).NoModel :=
  ⟨0, 0, s.counters.2.2, rfl⟩

theorem use_train_noModel (h : s.NoModel) (hfrozen : s.frozen = true) (al : Nat → UpdateAlloc)
    (b : UInt8) :
    s.use B (.train al b) = .ok (.trained, { s with window := s.window.push b }) := by
  rw [State.use, train_noModel h, hfrozen]
  rfl

theorem closed_trains (h : s.NoModel) (hfrozen : s.frozen = true) (al : Nat → UpdateAlloc) :
    outputs B [.train al 0, .train al 0] s ≠
      outputs B [.train al 0, .train al 0] (bcbPriorClose p s) := by
  have hopen : outputs B [.train al 0, .train al 0] s = .ok [.trained, .trained] := by
    rw [outputs_ok (use_train_noModel h hfrozen al 0),
      outputs_ok (use_train_noModel (s := { s with window := s.window.push 0 }) h hfrozen al 0)]
    rfl
  have hstep : ∀ t : State, t.NoModel → t.frozen = false → t.window.bytes ≠ [] →
      outputs B [.train al 0] t = .error .misuse := by
    intro t ht hthaw hw
    refine outputs_error ?_ _
    rw [State.use, train_noModel ht, hthaw, if_neg]
    · rfl
    · simpa using hw
  have hclosed : outputs B [.train al 0, .train al 0] (bcbPriorClose p s) = .error .misuse := by
    have hno := bcbPriorClose_noModel p s
    by_cases hw : s.window.bytes = []
    · have hmoves : (bcbPriorClose p s).use B (.train al 0) =
          .ok (.trained, { bcbPriorClose p s with window := s.window.push 0 }) := by
        rw [State.use, train_noModel hno, if_pos]
        · rfl
        · change (false || s.window.bytes.isEmpty) = true
          rw [hw]
          rfl
      have hpushed : (s.window.push 0).bytes ≠ [] := by
        unfold Window.push
        split_ifs <;> simp
      rw [outputs_ok hmoves, hstep { bcbPriorClose p s with window := s.window.push 0 } hno rfl
        hpushed]
      rfl
    · refine outputs_error ?_ _
      rw [State.use, train_noModel hno, if_neg]
      · rfl
      · change ¬ (false || s.window.bytes.isEmpty) = true
        simpa using hw
  rw [hopen, hclosed]
  rintro ⟨⟩

theorem closed_saves (h : Sound B s) (hmodel : ¬ s.NoModel) (m : Memory) (r : Registered) :
    outputs B [.save m r] s ≠ outputs B [.save m r] (bcbPriorClose p s) := by
  obtain ⟨file, hfile⟩ := h.saves (fun x y z hm => hmodel ⟨x, y, z, hm⟩) m r
  have hopen : s.use B (.save m r) = .ok (.file file, s) := by
    rw [State.use, hfile]
    rfl
  have hclosed : (bcbPriorClose p s).use B (.save m r) = .error .misuse := by
    rw [State.use, save_noModel (bcbPriorClose_noModel p s), error_bind]
  rw [outputs_ok hopen, outputs_error hclosed]
  rintro ⟨⟩

/-- Closing a prior goes unnoticed exactly where there is no model and training is not frozen. -/
theorem bcbPriorClose_undisturbed_iff (h : Reachable B s)
    (hopen : ∃ snap, s.priors p = some snap) :
    (∀ s', s.act B (.close p) = .ok s' → ∀ uses, outputs B uses s' = outputs B uses s) ↔
      s.NoModel ∧ s.frozen = false := by
  obtain ⟨snap, hsnap⟩ := hopen
  have hact : s.act B (.close p) = .ok (bcbPriorClose p s) := by
    simp only [State.act, hsnap]
    rfl
  constructor
  · intro hsame
    replace hsame := hsame _ hact
    have hmodel : s.NoModel := by
      by_contra hmodel
      exact closed_saves h.sound hmodel ⟨⟨fun _ _ => 0, fun _ _ => 0⟩, fun _ => 0⟩
        (registered none none) (hsame _).symm
    refine ⟨hmodel, ?_⟩
    cases hfrozen : s.frozen with
    | false => rfl
    | true => exact absurd (hsame _).symm (closed_trains hmodel hfrozen fun _ => .succeeds)
  · rintro ⟨hmodel, hfrozen⟩ s' hclose uses
    obtain rfl := Except.ok.inj (hact.symm.trans hclose)
    have hsame : SameVoid (bcbPriorClose p s) s :=
      ⟨bcbPriorClose_noModel p s, hmodel, rfl, hfrozen.symm⟩
    exact hsame.outputs uses

/-- The globals of the process with the model `g` of its own. -/
def State.trained (s : State) (g : Globals) : State :=
  { s with
    model := .owned g.bt g.ctx g.bloom
    window := g.window
    frozen := g.frozen }

theorem State.train_trained {g g' : Globals} {al : Nat → UpdateAlloc} {b : UInt8}
    (hrun : btV3Train B al b g = .ok g') :
    (s.trained g).train B al b = .ok { s.trained g' with frozen := g.frozen } := by
  change (do
    let g ← btV3Train B al b g
    return { s.trained g with frozen := _ }) = _
  rw [hrun]
  rfl

theorem Reachable.trained {g g' : Globals} {al : Nat → Nat → UpdateAlloc} {bs : List UInt8}
    (h : Reachable B (s.trained g)) (hrun : btV3TrainAll B al bs g = .ok g') :
    Reachable B (s.trained g') := by
  refine foldlM_inv (P := fun _ g => Reachable B (s.trained g)) hrun h ?_
  rintro _ ⟨b, i⟩ - g1 g2 h1 hstep
  have hfrozen := (btV3Train_within (h1.sound.owned _ _ _ rfl) hstep).2
  refine h1.act (a := .use (.train (al i) b)) ?_
  rw [State.act, State.use, State.train_trained hstep, ← hfrozen]
  rfl

theorem act_openCount (hp : s.priors p = none) :
    s.act .plain (.openPrior p (countImage 1 1)) = .ok { s with
      luts := true
      priors := Function.update s.priors p (some (countPrior 1 1).snap) } := by
  simp only [State.act, hp, priorParse_countImage_one, ok_bind]
  rfl

/-- The model of `aba`, then an unrelated prior, and nothing is left when the prior is closed. -/
theorem bcbPriorClose_disturbs : ∃ g s s',
    btV3TrainAll .plain (fun _ _ => .succeeds) [97, 98, 97]
      (btV3Init .plain (fun _ => blankBt) fun _ => blankCtx) = .ok g ∧
    Reachable .plain s ∧ s.model = .owned g.bt g.ctx g.bloom ∧ s.window = g.window ∧
    (∃ snap, s.priors 0 = some snap) ∧ s.act .plain (.close 0) = .ok s' ∧
    (∃ cum, outputs .plain [.distribution rcScale] s = .ok [.cum cum]) ∧
    outputs .plain [.distribution rcScale] s' = .error .misuse ∧
    ∀ m r, (∃ file, outputs .plain [.save m r] s = .ok [.file file]) ∧
      outputs .plain [.save m r] s' = .error .misuse := by
  obtain ⟨g, hrun, ⟨T, hT, hle⟩, hdist, -⟩ := aba_loads
  have hbytes : g.window.bytes = [97, 98, 97] :=
    (trainAll_after hrun (hT.bt.used.symm ▸ hle)).window.trans rfl
  have hinit : Reachable .plain (State.trained { State.initial with luts := true }
      (btV3Init .plain (fun _ => blankBt) fun _ => blankCtx)) :=
    Reachable.initial.act (a := .init _ _) rfl
  obtain ⟨s, hreach, hmodel, hwindow, hprior, hluts⟩ : ∃ s, Reachable .plain s ∧
      s.model = .owned g.bt g.ctx g.bloom ∧ s.window = g.window ∧
      s.priors 0 = some (countPrior 1 1).snap ∧ s.luts = true :=
    ⟨_, (hinit.trained hrun).act (act_openCount (p := 0) rfl), rfl, rfl, rfl, rfl⟩
  have hclose : s.act .plain (.close 0) = .ok (bcbPriorClose 0 s) := by
    simp only [State.act, hprior]
    rfl
  have hno := bcbPriorClose_noModel 0 s
  refine ⟨g, s, _, hrun, hreach, hmodel, hwindow, ⟨_, hprior⟩, hclose, ?_, ?_, fun m r => ⟨?_, ?_⟩⟩
  · obtain ⟨cum, hcum⟩ := hdist g.window
    have hreader : s.reader .plain = g.reader .plain g.window := by
      simp only [State.reader, State.export, State.ctxMask, hmodel, hwindow]
      rfl
    exact ⟨cum, by rw [outputs, State.use, hluts, hreader, hcum]; rfl⟩
  · refine outputs_error ?_ _
    rw [State.use, distribution_noModel hno, error_bind]
    change s.window.bytes ≠ []
    rw [hwindow, hbytes]
    exact List.cons_ne_nil _ _
  · obtain ⟨file, hfile⟩ := hreach.sound.saves (fun _ _ _ hm => by rw [hmodel] at hm; cases hm) m r
    exact ⟨file, by rw [outputs, State.use, hfile]; rfl⟩
  · refine outputs_error ?_ _
    rw [State.use, save_noModel hno, error_bind]

theorem bcbPriorClose_undisturbed_iff_untrained : ∃ s s', Reachable .plain s ∧ s.NoModel ∧
    (∃ snap, s.priors 0 = some snap) ∧ s.act .plain (.close 0) = .ok s' ∧
    ∀ uses, outputs .plain uses s' = outputs .plain uses s := by
  have hreach := Reachable.initial.act (act_openCount (p := 0) rfl)
  exact ⟨_, _, hreach, ⟨0, 0, 0, rfl⟩, ⟨_, rfl⟩, rfl,
    (bcbPriorClose_undisturbed_iff (p := 0) hreach ⟨_, rfl⟩).2 ⟨⟨0, 0, 0, rfl⟩, rfl⟩ _ rfl⟩

end Bcb.Prior.Shared
