import Bcb.Prior.Session

namespace Bcb.Prior.Shared

open Lib RangeCoder Bt

variable {B : Build} {s s' t : State} {S : Session} {m : Memory} {r : Registered}

/-! ## The indices of the tables -/

/-- The indices of the tables that the process has for itself stay within them. -/
def State.LinkedTables (s : State) : Prop :=
  ∀ bt ctx bloom, s.model = .owned bt ctx bloom → Bt.Linked bt ctx

theorem State.LinkedTables.congr (h : s.LinkedTables) (hmodel : s'.model = s.model) :
    s'.LinkedTables := fun bt ctx bloom hm => h bt ctx bloom (hmodel ▸ hm)

theorem State.LinkedTables.train {al : Nat → UpdateAlloc} {b : UInt8} (h : s.LinkedTables)
    (hrun : s.train B al b = .ok s') : s'.LinkedTables := by
  unfold State.train at hrun
  cases hmodel : s.model with
  | owned bt ctx bloom =>
    simp only [hmodel] at hrun
    obtain ⟨g, hg, hrun⟩ := bind_eq_ok.1 hrun
    obtain rfl := Except.ok.inj hrun
    rintro _ _ _ ⟨⟩
    exact btV3Train_linked (g := ⟨bt, ctx, bloom, s.window, s.frozen⟩) (h bt ctx bloom hmodel) hg
  | absent poolUsed ctxUsed ctxNslots =>
    simp only [hmodel] at hrun
    split_ifs at hrun
    obtain rfl := Except.ok.inj hrun
    exact h.congr hmodel.symm
  | attached q =>
    simp only [hmodel] at hrun
    split_ifs at hrun
    obtain rfl := Except.ok.inj hrun
    exact h.congr hmodel.symm

theorem init_linkedTables (pool : Nat → BtEntry) (ctxPool : Nat → CtxEntry) {o : Option Output}
    (hrun : s.call B (.init pool ctxPool) = .ok (o, s')) : s'.LinkedTables := by
  obtain ⟨-, rfl⟩ := Prod.mk.inj (Except.ok.inj hrun)
  rintro _ _ _ ⟨⟩
  exact init_linked B pool ctxPool

theorem State.LinkedTables.call {a : Action} {o : Option Output} (h : s.LinkedTables)
    (ha : S.Allowed B a) (hrun : s.call B a = .ok (o, s')) : s'.LinkedTables := by
  cases a with
  | init pool ctxPool => exact init_linkedTables pool ctxPool hrun
  | freeze on =>
    obtain ⟨-, rfl⟩ := Prod.mk.inj (Except.ok.inj hrun)
    exact h.congr rfl
  | resetWindow =>
    obtain ⟨-, rfl⟩ := Prod.mk.inj (Except.ok.inj hrun)
    exact h.congr rfl
  | setWindow w =>
    obtain ⟨-, rfl⟩ := Prod.mk.inj (Except.ok.inj hrun)
    exact h.congr rfl
  | use u =>
    obtain ⟨⟨o1, s1⟩, huse, heq⟩ := map_eq_ok.1 hrun
    obtain ⟨-, rfl⟩ := Prod.mk.inj heq
    cases u with
    | distribution scale =>
      obtain ⟨cum, -, huse⟩ := bind_eq_ok.1 huse
      cases huse
      exact h
    | train al b =>
      obtain ⟨s2, htrain, huse⟩ := bind_eq_ok.1 huse
      cases huse
      exact h.train htrain
    | save m r => exact ha.elim
  | free => exact ha.elim
  | openPrior q im => exact ha.elim
  | attach q => exact ha.elim
  | detach => exact ha.elim
  | close p => exact ha.elim

theorem State.LinkedTables.calls {as : List Action} {os : List (Option Output)}
    (h : s.LinkedTables) (hall : Session.AllAllowed B S as)
    (hrun : Shared.calls B as s = .ok (os, s')) : s'.LinkedTables := by
  induction as generalizing S s os with
  | nil =>
    obtain ⟨-, rfl⟩ := Prod.mk.inj (Except.ok.inj hrun)
    exact h
  | cons a as ih =>
    obtain ⟨ha, has⟩ := hall
    obtain ⟨⟨o, s1⟩, hcall, hrun⟩ := bind_eq_ok.1 hrun
    obtain ⟨⟨os1, s2⟩, hrest, hrun⟩ := bind_eq_ok.1 hrun
    obtain ⟨-, rfl⟩ := Prod.mk.inj (Except.ok.inj hrun)
    exact ih (h.call ha hcall) has hrest

theorem calls_cons {a : Action} {o : Option Output} (h : s.call B a = .ok (o, s'))
    (as : List Action) : (Shared.calls B (a :: as) s).map Prod.fst =
      ((Shared.calls B as s').map Prod.fst).map (o :: ·) := by
  rw [Shared.calls, h, ok_bind]
  dsimp only
  cases Shared.calls B as s' with
  | error f => rfl
  | ok x => rfl

/-! ## The file -/

theorem saveSnapshot_owned {g : Globals} (hbt : g.bt.used ≤ g.bt.cap)
    (hctx : g.ctx.used ≤ g.ctx.cap) (m : Memory) (r : Registered) :
    saveSnapshot m r { btV3Export B g with
      window := fun i => if i < btMaxDepth then pure (g.window.bytes.getD i (m.window i))
        else throw .oob } =
      .ok (if (saveHeader r (btV3Export B g)).fileSize < 2 ^ 63 then some (imageBytes B m r g)
        else none) := by
  have hwindow : (List.range btMaxDepth).mapM (fun i => if i < btMaxDepth then
      (pure (g.window.bytes.getD i (m.window i)) : Outcome UInt8) else throw .oob) =
      .ok ((List.range btMaxDepth).map fun i => g.window.bytes.getD i (m.window i)) :=
    mapM_eq_map fun i hi => if_pos (List.mem_range.1 hi)
  have hpool : (List.range g.bt.used).mapM
      (fun i => btEntryBytes (m.bt i) <$> (btV3Export B g).pool i) =
      .ok ((List.range g.bt.used).map fun i => btEntryBytes (m.bt i) (g.bt.pool i)) :=
    mapM_eq_map fun i hi => by
      change btEntryBytes (m.bt i) <$> g.bt.read i = _
      rw [Table.read_ok ((List.mem_range.1 hi).trans_le hbt)]
      rfl
  have hctxPool : (List.range g.ctx.used).mapM
      (fun i => ctxEntryBytes (m.ctx i) <$> (btV3Export B g).ctxPool i) =
      .ok ((List.range g.ctx.used).map fun i => ctxEntryBytes (m.ctx i) (g.ctx.pool i)) :=
    mapM_eq_map fun i hi => by
      change ctxEntryBytes (m.ctx i) <$> g.ctx.read i = _
      rw [Table.read_ok ((List.mem_range.1 hi).trans_le hctx)]
      rfl
  have hslots : (List.range g.ctx.nslots).mapM (fun i => intBytes <$> (btV3Export B g).ctxSlot i) =
      .ok ((List.range g.ctx.nslots).map fun i => intBytes (g.ctx.slot i)) :=
    mapM_eq_map fun i hi => by
      change intBytes <$> g.ctx.readSlot i = _
      rw [Table.readSlot, if_pos (List.mem_range.1 hi)]
      rfl
  have hbloom : (List.range (B.bloomBits / 8)).mapM (btV3Export B g).bloom =
      .ok ((List.range (B.bloomBits / 8)).map g.bloom) :=
    mapM_eq_map fun i hi => if_pos (List.mem_range.1 hi)
  change ((List.range btMaxDepth).mapM _ >>= fun window =>
    (List.range g.bt.used).mapM (fun i => btEntryBytes (m.bt i) <$> (btV3Export B g).pool i) >>=
      fun pool => (List.range g.ctx.used).mapM
        (fun i => ctxEntryBytes (m.ctx i) <$> (btV3Export B g).ctxPool i) >>= fun ctxPool =>
          (List.range g.ctx.nslots).mapM (fun i => intBytes <$> (btV3Export B g).ctxSlot i) >>=
            fun slots => (List.range (B.bloomBits / 8)).mapM (btV3Export B g).bloom >>= _) = _
  rw [hwindow, ok_bind, hpool, ok_bind, hctxPool, ok_bind, hslots, ok_bind, hbloom, ok_bind]
  rfl

theorem save_owned {bt : Table BtEntry} {ctx : Table CtxEntry} {bloom : Nat → UInt8}
    (hmodel : s.model = .owned bt ctx bloom) (hbt : bt.used ≤ bt.cap) (hctx : ctx.used ≤ ctx.cap)
    (m : Memory) (r : Registered) : s.use B (.save m r) =
      .ok (.file (if (saveHeader r (btV3Export B ⟨bt, ctx, bloom, s.window, s.frozen⟩)).fileSize <
        2 ^ 63 then some (imageBytes B m r ⟨bt, ctx, bloom, s.window, s.frozen⟩) else none), s) := by
  have hexport : s.export B m =
      { btV3Export B ⟨bt, ctx, bloom, s.window, s.frozen⟩ with
        window := fun i => if i < btMaxDepth then pure (s.window.bytes.getD i (m.window i))
          else throw .oob } := by
    simp only [State.export, hmodel]
    rfl
  rw [State.use, hexport, saveSnapshot_owned (g := ⟨bt, ctx, bloom, s.window, s.frozen⟩) hbt hctx]
  rfl

/-! ## Tables, and an image of them -/

/-- What is read of the tables of a process in a snapshot. -/
structure ReadAs (B : Build) (g : Globals) (snap : BtV3Snapshot) : Prop where
  poolUsed : snap.poolUsed = g.bt.used
  ctxUsed : snap.ctxUsed = g.ctx.used
  ctxNslots : snap.ctxNslots = g.ctx.nslots
  pool : ∀ i < g.bt.used, snap.pool i = g.bt.read i
  ctxPool : ∀ i < g.ctx.used, snap.ctxPool i = g.ctx.read i
  ctxSlot : ∀ i < g.ctx.nslots, snap.ctxSlot i = g.ctx.readSlot i
  bloom : ∀ i < B.bloomBits / 8, snap.bloom i = .ok (g.bloom i)
  distribution : ∀ (w : Window) (scale : Nat), btV3DistributionR B true
    ⟨snap.pool, snap.ctxPool, snap.ctxSlot, snap.bloom, (snap.ctxNslots + (2 ^ 64 - 1)) % 2 ^ 64, w⟩
      scale = btV3DistributionR B true (g.reader B w) scale

/-- A process with frozen tables of its own, and one that is attached to an image of them. -/
structure Twins (B : Build) (s t : State) : Prop where
  tables : ∃ bt ctx bloom q snap, s.model = .owned bt ctx bloom ∧ t.model = .attached q ∧
    t.priors q = some snap ∧ ReadAs B ⟨bt, ctx, bloom, s.window, true⟩ snap
  window : t.window = s.window
  frozen : s.frozen = true ∧ t.frozen = true
  luts : s.luts = true ∧ t.luts = true

/-- The calls that neither thaw the tables nor replace them. -/
def Keeps : Action → Prop
  | .freeze on => on = true
  | .resetWindow | .setWindow _ | .use _ => True
  | _ => False

variable {g : Globals} {snap : BtV3Snapshot}

theorem ReadAs.windowed (h : ReadAs B g snap) (w : Window) (on : Bool) :
    ReadAs B { g with window := w, frozen := on } snap :=
  ⟨h.poolUsed, h.ctxUsed, h.ctxNslots, h.pool, h.ctxPool, h.ctxSlot, h.bloom, h.distribution⟩

theorem export_owned {bt : Table BtEntry} {ctx : Table CtxEntry} {bloom : Nat → UInt8}
    (hs : s.model = .owned bt ctx bloom) (m : Memory) :
    s.export B m = { btV3Export B ⟨bt, ctx, bloom, s.window, true⟩ with
      window := fun i => if i < btMaxDepth then pure (s.window.bytes.getD i (m.window i))
        else throw .oob } := by
  simp only [State.export, hs]
  rfl

theorem export_attached {q : Nat} (ht : t.model = .attached q) (hq : t.priors q = some snap)
    (m : Memory) : t.export B m = { snap with
      bloomBytes := B.bloomBits / 8
      window := fun i => if i < btMaxDepth then pure (t.window.bytes.getD i (m.window i))
        else throw .oob
      winLen := t.window.bytes.length
      btEntrySz := btEntrySize
      ctxEntrySz := ctxEntrySize
      maxDepth := btMaxDepth
      bloomBits := B.bloomBits
      pres := B.pres } := by
  simp only [State.export, ht, hq, Option.getD_some]

namespace Twins

theorem save (h : Twins B s t) (m : Memory) (r : Registered) :
    saveSnapshot m r (t.export B m) = saveSnapshot m r (s.export B m) := by
  obtain ⟨bt, ctx, bloom, q, snap, hs, ht, hq, hread⟩ := h.tables
  have hpool : (List.range bt.used).mapM (fun i => btEntryBytes (m.bt i) <$> snap.pool i) =
      (List.range bt.used).mapM (fun i => btEntryBytes (m.bt i) <$> bt.read i) :=
    mapM_congr fun i hi => by rw [hread.pool i (List.mem_range.1 hi)]
  have hctxPool : (List.range ctx.used).mapM
      (fun i => ctxEntryBytes (m.ctx i) <$> snap.ctxPool i) =
      (List.range ctx.used).mapM (fun i => ctxEntryBytes (m.ctx i) <$> ctx.read i) :=
    mapM_congr fun i hi => by rw [hread.ctxPool i (List.mem_range.1 hi)]
  have hslots : (List.range ctx.nslots).mapM (fun i => intBytes <$> snap.ctxSlot i) =
      (List.range ctx.nslots).mapM (fun i => intBytes <$> ctx.readSlot i) :=
    mapM_congr fun i hi => by rw [hread.ctxSlot i (List.mem_range.1 hi)]
  have hbloom : (List.range (B.bloomBits / 8)).mapM snap.bloom = (List.range (B.bloomBits / 8)).mapM
      (fun i => if i < B.bloomBits / 8 then pure (bloom i) else throw .oob) :=
    mapM_congr fun i hi => by
      rw [hread.bloom i (List.mem_range.1 hi), if_pos (List.mem_range.1 hi)]
      rfl
  have hheader : saveHeader r (t.export B m) = saveHeader r (s.export B m) := by
    rw [export_owned hs, export_attached ht hq, h.window]
    simp only [saveHeader, hread.poolUsed, hread.ctxUsed, hread.ctxNslots]
    rfl
  rw [saveSnapshot, saveSnapshot, hheader, export_owned hs, export_attached ht hq, h.window]
  dsimp only
  rw [hread.poolUsed, hread.ctxUsed, hread.ctxNslots, hpool, hctxPool, hslots, hbloom]
  rfl

theorem distribution (h : Twins B s t) (scale : Nat) :
    btV3DistributionR B t.luts (t.reader B) scale =
      btV3DistributionR B s.luts (s.reader B) scale := by
  obtain ⟨bt, ctx, bloom, q, snap, hs, ht, hq, hread⟩ := h.tables
  have hmine : s.reader B = Globals.reader B ⟨bt, ctx, bloom, s.window, true⟩ s.window := by
    rw [State.reader, export_owned hs]
    simp only [State.ctxMask, hs]
    rfl
  have hits : t.reader B = ⟨snap.pool, snap.ctxPool, snap.ctxSlot, snap.bloom,
      (snap.ctxNslots + (2 ^ 64 - 1)) % 2 ^ 64, s.window⟩ := by
    rw [State.reader, export_attached ht hq, h.window]
    simp only [State.ctxMask, ht, hq, Option.getD_some]
  rw [hmine, hits, h.luts.1, h.luts.2]
  exact hread.distribution s.window scale

theorem windowed (h : Twins B s t) (w : Window) :
    Twins B { s with window := w } { t with window := w } := by
  obtain ⟨bt, ctx, bloom, q, snap, hs, ht, hq, hread⟩ := h.tables
  exact ⟨⟨bt, ctx, bloom, q, snap, hs, ht, hq, hread.windowed w true⟩, rfl, h.frozen, h.luts⟩

theorem train (h : Twins B s t) (al : Nat → UpdateAlloc) (b : UInt8) :
    s.train B al b = .ok { s with window := s.window.push b } ∧
      t.train B al b = .ok { t with window := s.window.push b } := by
  obtain ⟨bt, ctx, bloom, q, snap, hs, ht, -, -⟩ := h.tables
  constructor
  · simp only [State.train, hs, btV3Train, h.frozen.1, if_true]
    rfl
  · simp only [State.train, ht, h.frozen.2, Bool.true_or, if_true, h.window]
    rfl

theorem call (h : Twins B s t) {a : Action} (ha : Keeps a) :
    Alike (fun x y => x.1 = y.1 ∧ Twins B x.2 y.2) (s.call B a) (t.call B a) := by
  cases a with
  | freeze on =>
    obtain rfl : on = true := ha
    obtain ⟨bt, ctx, bloom, q, snap, hs, ht, hq, hread⟩ := h.tables
    exact .ok ⟨rfl, ⟨bt, ctx, bloom, q, snap, hs, ht, hq, hread⟩, h.window, ⟨rfl, rfl⟩, h.luts⟩
  | resetWindow => exact .ok ⟨rfl, h.windowed .empty⟩
  | setWindow w => exact .ok ⟨rfl, h.windowed w⟩
  | use u =>
    cases u with
    | distribution scale =>
      rw [State.call, State.call, State.use, State.use, h.distribution scale]
      cases btV3DistributionR B s.luts (s.reader B) scale with
      | error f => exact .error f
      | ok cum => exact .ok ⟨rfl, h⟩
    | train al b =>
      obtain ⟨hs, ht⟩ := h.train al b
      rw [State.call, State.call, State.use, State.use, hs, ht]
      exact .ok ⟨rfl, h.windowed _⟩
    | save m r =>
      rw [State.call, State.call, State.use, State.use, h.save m r]
      cases saveSnapshot m r (s.export B m) with
      | error f => exact .error f
      | ok file => exact .ok ⟨rfl, h⟩
  | init pool ctxPool => exact ha.elim
  | free => exact ha.elim
  | openPrior q im => exact ha.elim
  | attach q => exact ha.elim
  | detach => exact ha.elim
  | close p => exact ha.elim

theorem calls {as : List Action} (h : Twins B s t) (has : ∀ a ∈ as, Keeps a) :
    Alike (fun x y => x.1 = y.1 ∧ Twins B x.2 y.2) (Shared.calls B as s) (Shared.calls B as t) := by
  induction as generalizing s t with
  | nil => exact .ok ⟨rfl, h⟩
  | cons a as ih =>
    apply (h.call (has a List.mem_cons_self)).bind
    rintro ⟨o, s1⟩ ⟨_, t1⟩ ⟨rfl, h1⟩
    apply (ih h1 fun x hx => has x (List.mem_cons_of_mem a hx)).bind
    rintro ⟨os, s2⟩ ⟨_, t2⟩ ⟨rfl, h2⟩
    exact .ok ⟨rfl, h2⟩

end Twins

/-! ## From the file to the twin -/

section Attach

variable {g : Globals} {im : Image} {T : Counts}

theorem Saved.readAs (h : Saved B m r g im) (hl : Bt.Linked g.bt g.ctx)
    (hT : Bt.Represents B T g) : ReadAs B g (snapshot im (header im)) where
  poolUsed := h.poolUsed
  ctxUsed := h.ctxUsed
  ctxNslots := h.ctxNslots
  pool i hi := (h.pool hl hi).trans (Table.read_ok (hi.trans_le hT.bt.indexed.used_le)).symm
  ctxPool i hi := (h.ctxPool hl hi).trans (Table.read_ok (hi.trans_le hT.ctx.indexed.used_le)).symm
  ctxSlot i hi := (h.ctxSlot hl hi).trans (if_pos hi).symm
  bloom _ hi := h.bloom hi
  distribution w scale := by
    have hpos : 0 < (snapshot im (header im)).ctxNslots := by
      obtain ⟨k, hk⟩ := hT.ctx.indexed.size
      rw [h.ctxNslots, hk]
      exact Nat.two_pow_pos k
    rw [Codec.Global.ctxMask_eq hpos (im.le_lt 48 8)]
    exact (h.agree hl hT w (fun _ => -1) 0).distribution true scale

theorem Saved.snapshotWindow (h : Saved B m r g im) :
    Codec.Global.snapshotWindow (snapshot im (header im)) = .ok g.window := by
  have hlen : (snapshot im (header im)).winLen = g.window.bytes.length :=
    congrArg BcbpHeader.winLen h.header
  have hle := g.window.length_le
  have hmin : min (snapshot im (header im)).winLen.toNat btMaxDepth = g.window.bytes.length := by
    rw [hlen, Int.toNat_natCast, Nat.min_eq_left hle]
  have hbytes : (List.range g.window.bytes.length).mapM (snapshot im (header im)).window =
      .ok g.window.bytes := by
    rw [mapM_eq_map fun i hi => h.window ((List.mem_range.1 hi).trans_le hle)]
    congr 1
    apply List.ext_getElem
    · rw [bytes_length]
    · intro i hi hi'
      rw [List.getElem_map, List.getElem_range, List.getD_eq_getElem _ _ hi']
  rw [Codec.Global.snapshotWindow, hmin, hbytes, ok_bind]
  exact congrArg Except.ok (Window.eq_of_bytes (List.take_of_length_le hle))

theorem open_attach (h : Saved B m r g im) (hl : Bt.Linked g.bt g.ctx)
    (hT : Bt.Represents B T g) (hfree : g.ctx.used < g.ctx.nslots) {q : Nat}
    (hq : t.priors q = none) : ∃ t1 t2, t.call B (.openPrior q im) = .ok (none, t1) ∧
      t1.call B (.attach q) = .ok (none, t2) ∧ t2.model = .attached q ∧
      t2.priors q = some (snapshot im (header im)) ∧ t2.window = g.window ∧ t2.frozen = true ∧
      t2.luts = true := by
  obtain ⟨slot, mask, hp⟩ := h.parse hl hT hfree
  let t1 : State := { t with
    priors := Function.update t.priors q (some (snapshot im (header im)))
    luts := true }
  have hopen : t.call B (.openPrior q im) = .ok (none, t1) := by
    simp only [State.call, State.act, hq, hp, ok_bind]
    rfl
  have hq1 : t1.priors q = some (snapshot im (header im)) := Function.update_self _ _ _
  let t2 : State := { t1 with model := .attached q, window := g.window, frozen := true }
  have hattach : t1.call B (.attach q) = .ok (none, t2) := by
    simp only [State.call, State.act, hq1, h.sameBuild, Bool.not_true, Bool.false_eq_true, if_false,
      Saved.snapshotWindow h, ok_bind]
    rfl
  exact ⟨t1, t2, hopen, hattach, rfl, hq1, rfl, rfl, rfl⟩

end Attach

/-- A session is saved, and some process opens the file and attaches to it: whatever that process is
asked from there on, it puts out what the first one does, frozen.  A save puts out what the process
has in its window buffer behind the window, too: here both have the same. -/
theorem calls_resumed {l l' : List Action} (hroom : RoomFor B [])
    (hall : Session.AllAllowed B .new l) (hkeeps : ∀ a ∈ l', Keeps a) (pool : Nat → BtEntry)
    (ctxPool : Nat → CtxEntry) (m : Memory) (r : Registered) (s t : State) {q : Nat}
    (hq : t.priors q = none) : ∃ s1 o,
      calls B (.init pool ctxPool :: l) s = .ok (none :: Session.replies B .new l, s1) ∧
      s1.use B (.save m r) = .ok (.file o, s1) ∧
      ∀ file, o = some file → (calls B (.openPrior q (.ofList file) :: .attach q :: l') t).map
        Prod.fst = ((calls B (.freeze true :: l') s1).map Prod.fst).map (none :: ·) := by
  obtain ⟨s0, hinit, h0⟩ := init_held hroom pool ctxPool s
  obtain ⟨s1, hrun, h1⟩ := h0.calls hall
  have hlinked : s1.LinkedTables := (init_linkedTables pool ctxPool hinit).calls hall hrun
  obtain ⟨bt, ctx, bloom, hmodel, hcounted⟩ := h1.owned
  refine ⟨s1, _, ?_, save_owned hmodel hcounted.represents.bt.indexed.used_le
    hcounted.represents.ctx.indexed.used_le m r, ?_⟩
  · rw [calls, hinit, ok_bind]
    dsimp only
    rw [hrun]
    rfl
  · intro file hsave
    have hl := hlinked bt ctx bloom hmodel
    have hfree : ctx.used < ctx.nslots :=
      (hcounted.ctx.used_lt_reach hcounted.represents.ctx.indexed.used_le
        (hl.ctxUsed.trans_lt (by decide : 2 ^ 31 < 2 ^ 32))).trans_le ctx.reach_le
    split_ifs at hsave with hsize
    obtain rfl := Option.some.inj hsave
    have hsaved := imageBytes_saved (M := m) hsize
    obtain ⟨t1, t2, hopen, hattach, hmodel2, hq2, hwindow2, hfrozen2, hluts2⟩ :=
      open_attach hsaved hl hcounted.represents hfree hq
    have htwins : Twins B { s1 with frozen := true } t2 :=
      ⟨⟨bt, ctx, bloom, q, _, hmodel, hmodel2, hq2,
        (Saved.readAs hsaved hl hcounted.represents).windowed _ _⟩, hwindow2, ⟨rfl, hfrozen2⟩,
        h1.luts, hluts2⟩
    have hfreeze : s1.call B (.freeze true) = .ok (none, { s1 with frozen := true }) := rfl
    have hsame : (calls B l' { s1 with frozen := true }).map Prod.fst =
        (calls B l' t2).map Prod.fst := (htwins.calls hkeeps).map_eq fun _ _ h => h.1
    rw [calls_cons hopen, calls_cons hattach, calls_cons hfreeze, hsame]

def abaCalls : List Action :=
  [.use (.train (fun _ => .succeeds) 97), .use (.train (fun _ => .succeeds) 98),
    .use (.train (fun _ => .succeeds) 97)]

/-- The process that is attached is asked for a table at another window, and saves. -/
def abaLater : List Action :=
  [.setWindow ⟨[98], by decide⟩, .use (.distribution rcScale),
    .use (.train (fun _ => .succeeds) 99),
    .use (.save ⟨⟨fun _ _ => 0, fun _ _ => 0⟩, fun _ => 0⟩ .none)]

theorem aba_model {os : List (Option Output)}
    (hrun : calls .plain (.init (fun _ => blankBt) (fun _ => blankCtx) :: abaCalls) .initial =
      .ok (os, s)) : ∃ bt ctx bloom, s.model = .owned bt ctx bloom ∧ bt.used = 3 ∧
        bt.cap = 2 ^ 16 ∧ ctx.used = 3 ∧ ctx.cap = 2 ^ 15 ∧ ctx.nslots = 2 ^ 16 := by
  have hmap : (calls .plain (.init (fun _ => blankBt) (fun _ => blankCtx) :: abaCalls)
      .initial).map (fun x => x.2.model.casesOn (fun _ _ _ => none)
        (fun bt ctx _ => some (bt.used, bt.cap, ctx.used, ctx.cap, ctx.nslots)) fun _ => none) =
          .ok (some (3, 2 ^ 16, 3, 2 ^ 15, 2 ^ 16)) := by
    decide +kernel
  rw [hrun] at hmap
  have hmodel := Except.ok.inj hmap
  dsimp only at hmodel
  cases hm : s.model with
  | owned bt ctx bloom =>
    rw [hm] at hmodel
    simp only [Option.some.injEq, Prod.mk.injEq] at hmodel
    exact ⟨bt, ctx, bloom, rfl, hmodel⟩
  | absent x y z =>
    rw [hm] at hmodel
    cases hmodel
  | attached q =>
    rw [hm] at hmodel
    cases hmodel

theorem calls_resumed_aba : ∃ s1 file,
    calls .plain (.init (fun _ => blankBt) (fun _ => blankCtx) :: abaCalls) .initial =
      .ok (none :: Session.replies .plain .new abaCalls, s1) ∧
    s1.use .plain (.save ⟨⟨fun _ _ => 0, fun _ _ => 0⟩, fun _ => 7⟩ .none) =
      .ok (.file (some file), s1) ∧
    (calls .plain (.openPrior 0 (.ofList file) :: .attach 0 :: abaLater) .initial).map Prod.fst =
      ((calls .plain (.freeze true :: abaLater) s1).map Prod.fst).map (none :: ·) := by
  have hall : Session.AllAllowed .plain .new abaCalls :=
    ⟨⟨rfl, .inl rfl, by decide⟩, ⟨rfl, .inl rfl, by decide⟩, ⟨rfl, .inl rfl, by decide⟩, trivial⟩
  have hkeeps : ∀ a ∈ abaLater, Keeps a := by
    intro a ha
    simp only [abaLater, List.mem_cons, List.not_mem_nil, or_false] at ha
    rcases ha with rfl | rfl | rfl | rfl <;> trivial
  obtain ⟨s1, o, hrun, hsave, hlater⟩ := calls_resumed (.inl rfl) hall hkeeps (fun _ => blankBt)
    (fun _ => blankCtx) ⟨⟨fun _ _ => 0, fun _ _ => 0⟩, fun _ => 7⟩ .none .initial .initial
    (q := 0) rfl
  obtain ⟨bt, ctx, bloom, hmodel, hbt, hbtCap, hctx, hctxCap, hslots⟩ := aba_model hrun
  have howned := save_owned (B := .plain) hmodel (hbt.trans_le (hbtCap ▸ by norm_num))
    (hctx.trans_le (hctxCap ▸ by norm_num)) ⟨⟨fun _ _ => 0, fun _ _ => 0⟩, fun _ => 7⟩ .none
  rw [if_pos (saveHeader_lt .plain .none (g := ⟨bt, ctx, bloom, s1.window, s1.frozen⟩)
    (hbt.trans_le (by norm_num)) (hctx.trans_le (by norm_num)) (hslots.trans_le (by norm_num)))]
    at howned
  obtain ⟨ho, -⟩ := Prod.mk.inj (Except.ok.inj (hsave.symm.trans howned))
  obtain rfl := Output.file.inj ho
  exact ⟨s1, _, hrun, hsave, hlater _ rfl⟩

end Bcb.Prior.Shared
