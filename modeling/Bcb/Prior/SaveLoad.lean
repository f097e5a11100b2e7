import Bcb.Bt.Accepts
import Bcb.Bt.Agree
import Bcb.Bt.Overfull
import Bcb.Codec.Defs
import Bcb.Prior.LandmarkIndex
import Bcb.Prior.ReadBack

namespace Bcb.Prior

open Lib Layout Bt

variable {B : Build} {m : Padding} {M : Memory} {r : Registered} {g : Globals} {im : Image}
  {T : Counts}

/-- The loaded prior has the registered tables and the saved window, and its distributions are
those of the model in memory. -/
structure ReadsBack (B : Build) (r : Registered) (g : Globals) (p : BcbPrior) : Prop where
  lmK : p.lmK = r.lmK
  lmN : r.lmK ≠ 0 → p.lmN = r.lmN
  lmCtx : ∀ k < r.lmK, p.lmCtx k = .ok ((List.range r.lmN).map (r.lmCtx k))
  lmCum : ∀ k < r.lmK, p.lmCum k = .ok fun b => (r.lmCum k b).toNat
  schemaRec : p.schemaRec = r.scRec
  schemaPos : p.schemaPos = r.scPos
  schemaModes : ∀ pos < r.scRec, p.schemaModes pos = .ok (r.scModes pos)
  schemaCum : ∀ pos < r.scRec, p.schemaCum pos = .ok fun b => (r.scCum pos b).toNat
  winLen : p.snap.winLen = g.window.bytes.length
  window : ∀ i < btMaxDepth, p.snap.window i = .ok (g.window.bytes.getD i 0)
  distribution : ∀ (w : Window) (scale : Nat),
    btV3DistributionR B true (Codec.reader p w) scale =
      btV3DistributionR B true (g.reader B w) scale

/-- The entries of the context at a place. -/
def chainAt (T : Counts) (i : Nat) : List Nat := T.chain (T.ctxs.getD i [])

theorem Saved.poolUsed (h : Saved B M r g im) :
    (snapshot im (Prior.header im)).poolUsed = g.bt.used := congrArg BcbpHeader.poolUsed h.header

theorem Saved.ctxUsed (h : Saved B M r g im) :
    (snapshot im (Prior.header im)).ctxUsed = g.ctx.used := congrArg BcbpHeader.ctxUsed h.header

theorem Saved.ctxNslots (h : Saved B M r g im) :
    (snapshot im (Prior.header im)).ctxNslots = g.ctx.nslots :=
  congrArg BcbpHeader.ctxNslots h.header

theorem Saved.sameBuild (h : Saved B M r g im) :
    (snapshot im (Prior.header im)).sameBuild B = true := by
  have hbits : B.bloomBits % 2 ^ 32 = B.bloomBits := by
    have hpow : B.bloomBits ≤ 2 ^ 24 := Nat.pow_le_pow_right (by decide) B.bloomLog_le
    exact Nat.mod_eq_of_lt (hpow.trans_lt (by norm_num))
  rw [h.header]
  change (decide (btEntrySize = btEntrySize) && decide (ctxEntrySize = ctxEntrySize) &&
    decide (Bcb.btMaxDepth = Bcb.btMaxDepth) && decide (B.bloomBits % 2 ^ 32 = B.bloomBits) &&
    decide (B.pres = B.pres) && decide (B.bloomBits / 8 = B.bloomBits / 8)) = true
  rw [hbits]
  simp

theorem exists_free_slot (hT : Represents B T g) (hle : g.ctx.used ≤ 2 ^ 31)
    (hroom : g.ctx.used < g.ctx.nslots) : ∃ i < g.ctx.nslots, link (g.ctx.slot i) = none := by
  obtain ⟨dist, hF⟩ := hT.ctx.indexed.filled
  have hnamed : g.ctx.named < g.ctx.reach := by
    rw [g.ctx.named_eq hle]
    exact Nat.lt_min.2 ⟨hroom, hle.trans_lt (by norm_num)⟩
  obtain ⟨i, hi, hfree⟩ := hF.exists_free hnamed
  exact ⟨i, hi.trans_le g.ctx.reach_le, hfree⟩

theorem no_free_slot (hT : Represents B T g) (hle : g.ctx.used ≤ 2 ^ 31)
    (hfull : g.ctx.nslots ≤ g.ctx.used) {i : Nat} (hi : i < g.ctx.nslots) :
    link (g.ctx.slot i) ≠ none := by
  obtain ⟨dist, hF⟩ := hT.ctx.indexed.filled
  have hreach := g.ctx.reach_le
  have hcount := hF.le
  rw [g.ctx.named_eq hle] at hF hcount
  have heq : g.ctx.reach = g.ctx.used := by omega
  rw [heq] at hF
  exact hF.full (by omega)

theorem Saved.next (h : Saved B M r g im) (hl : Linked g.bt g.ctx) {i : Nat} (hi : i < g.bt.used) :
    (snapshot im (Prior.header im)).next i = nextOf g.bt i := by
  rw [BtV3Snapshot.next, BtV3Snapshot.cell_eq (h.pool hl hi)]
  rfl

theorem Saved.acceptable (h : Saved B M r g im) (hl : Linked g.bt g.ctx) (hT : Represents B T g)
    (hroom : g.ctx.used < g.ctx.nslots) :
    Acceptable (snapshot im (Prior.header im)) (chainAt T) := by
  have hshort : ∀ c b, (c, b) ∈ T.pairs → c.length ≤ btMaxDepth := fun c b hb =>
    (hT.short c (hT.sound.pairs_seen _ hb)).2
  have hbelow : ∀ i, ∀ j ∈ chainAt T i, j < g.bt.used := by
    intro i j hj
    obtain ⟨b, hb, -⟩ := hT.sound.chain_pairs _ j hj
    exact hT.bt.used ▸ (List.getElem?_eq_some_iff.1 hb).1
  constructor
  · rw [h.ctxNslots]
    exact hT.ctx.indexed.size
  · rw [h.ctxNslots, h.ctxUsed]
    exact fun i hi => ⟨_, h.ctxSlot hl hi, (hl.ctxSlots i).below⟩
  · obtain ⟨i, hi, hfree⟩ := exists_free_slot hT hl.ctxUsed hroom
    rw [h.ctxNslots]
    exact ⟨i, hi, _, h.ctxSlot hl hi, hfree⟩
  · rw [h.ctxUsed]
    intro i hi
    have hentry := hT.ctx.entry i _ (hT.ctxAt hi)
    obtain ⟨b, hb⟩ := hT.sound.ctxs_pairs _ (List.mem_of_getElem? (hT.ctxAt hi))
    refine ⟨_, h.ctxPool hl hi, ?_, ?_⟩
    · rw [(sameCtx_iff.1 hentry.same).1]
      exact hshort _ b hb
    · exact hentry.chain.congr fun j hj => h.next hl (hbelow i j hj)
  · rw [h.poolUsed]
    intro i hi
    refine ⟨_, h.pool hl hi, ?_, (hl.next i hi).below⟩
    rw [hT.bt.used] at hi
    have hpair := List.getElem?_eq_getElem hi
    obtain ⟨-, hsame⟩ := btSame_iff.1 (hT.bt.same i _ hpair)
    rw [(sameCtx_iff.1 hsame).1]
    exact hshort _ _ (List.mem_of_getElem? hpair)
  · rw [h.poolUsed]
    exact fun i _ => hbelow i
  · rw [h.ctxUsed]
    exact fun i hi i' hi' hne j hj => hT.chains_disjoint hi hi' hne hj

theorem Saved.agree (h : Saved B M r g im) (hl : Linked g.bt g.ctx) (hT : Represents B T g)
    (w : Window) (slot : Nat → Int) (mask : Nat) : Agree B
      (Codec.reader (priorOf im (Prior.header im) slot mask) w) (g.reader B w) := by
  have hmask : (Codec.reader (priorOf im (Prior.header im) slot mask) w).ctxMask =
      g.ctx.nslots - 1 := by
    change (if (snapshot im (Prior.header im)).ctxNslots = 0 then 0
      else (snapshot im (Prior.header im)).ctxNslots - 1) = _
    rw [h.ctxNslots]
    split_ifs with h0
    · rw [h0]
    · rfl
  have hslots : 0 < g.ctx.nslots := by
    obtain ⟨k, hk⟩ := hT.ctx.indexed.size
    exact hk ▸ Nat.two_pow_pos k
  have hslot : ∀ {i}, i ≤ (Codec.reader (priorOf im (Prior.header im) slot mask) w).ctxMask →
      (Codec.reader (priorOf im (Prior.header im) slot mask) w).ctxSlot i =
        .ok (g.ctx.slot i) := fun hi => h.ctxSlot hl (by rw [hmask] at hi; omega)
  refine agree_of_eq g.ctx.used g.bt.used (hmask.trans hT.ctx.indexed.mask.symm) ?_ ?_ ?_ ?_ ?_ ?_
    ?_ ?_
  · rfl
  · intro i hi _
    rw [hslot hi]
    rw [hmask] at hi
    exact (if_pos (by omega : i < g.ctx.nslots)).symm
  · intro i hi
    exact (h.bloom hi).trans (if_pos hi).symm
  · intro i hi
    exact (h.ctxPool hl hi).trans (Table.read_ok (hi.trans_le hT.ctx.indexed.used_le)).symm
  · intro i hi
    exact (h.pool hl hi).trans (Table.read_ok (hi.trans_le hT.bt.indexed.used_le)).symm
  · intro i hi v hv
    rw [hslot hi] at hv
    obtain rfl := Except.ok.inj hv
    exact (hl.ctxSlots i).below
  · intro i hi e he
    obtain rfl := Except.ok.inj ((h.ctxPool hl hi).symm.trans he)
    exact (hl.first i hi).below
  · intro i hi e he
    obtain rfl := Except.ok.inj ((h.pool hl hi).symm.trans he)
    exact (hl.next i hi).below

theorem Saved.readsBack (h : Saved B ⟨m, fun _ => 0⟩ r g im) (hl : Linked g.bt g.ctx)
    (hT : Represents B T g) (slot : Nat → Int) (mask : Nat) :
    ReadsBack B r g (priorOf im (Prior.header im) slot mask) where
  lmK := by
    change (Prior.header im).lmK % 2 ^ 32 = r.lmK
    rw [h.header]
    exact Nat.mod_eq_of_lt r.lmK_lt
  lmN hk := by
    change (Prior.header im).lmN = r.lmN
    rw [h.header]
    exact if_neg hk
  lmCtx _ hk := h.lmCtx hk
  lmCum _ hk := h.lmCum hk
  schemaRec := congrArg BcbpHeader.schemaRec h.header
  schemaPos := congrArg BcbpHeader.schemaPos h.header
  schemaModes _ hpos := h.schemaModes hpos
  schemaCum _ hpos := h.schemaCum hpos
  winLen := congrArg BcbpHeader.winLen h.header
  window _ hi := h.window hi
  distribution w scale := (h.agree hl hT w slot mask).distribution true scale

theorem Saved.headerSize_le (h : Saved B M r g im) : headerSize ≤ im.len := by
  have hle := ending_ge (imageSections_fit (B := B) (M := M) (r := r) (g := g))
  rwa [imageSections_ending, ← h.len] at hle

theorem Saved.headerOk (h : Saved B M r g im) :
    headerOk (Prior.header im) im.len = true := by
  have hlt := h.lt
  rw [h.header]
  rw [h.len] at hlt ⊢
  exact saveHeader_ok hlt

/-- A saved image is refused where the context table is full. -/
theorem Saved.parse_full (h : Saved B M r g im) (hl : Linked g.bt g.ctx) (hT : Represents B T g)
    (hfull : g.ctx.nslots ≤ g.ctx.used) : priorParse B im = .ok none := by
  have hvalid : btV3Validate B (snapshot im (Prior.header im)) = .ok false := by
    apply btV3Validate_full h.sameBuild
    rw [h.ctxNslots, h.ctxUsed]
    intro i hi
    obtain ⟨k, hk⟩ := Option.ne_none_iff_exists'.1 (no_free_slot hT hl.ctxUsed hfull hi)
    exact ⟨_, k, h.ctxSlot hl hi, hk, (hl.ctxSlots i).below k hk⟩
  simp only [priorParse, if_neg (Nat.not_lt_of_le h.headerSize_le), h.headerOk, hvalid, ok_bind,
    Bool.not_true, Bool.not_false, Bool.false_eq_true, if_false, if_true]
  rfl

theorem Saved.parse (h : Saved B M r g im) (hl : Linked g.bt g.ctx) (hT : Represents B T g)
    (hroom : g.ctx.used < g.ctx.nslots) :
    ∃ slot mask, priorParse B im = .ok (some (priorOf im (Prior.header im) slot mask)) := by
  have hvalid := (h.acceptable hl hT hroom).btV3Validate h.sameBuild
  have hlmK : (Prior.header im).lmK % 2 ^ 32 = r.lmK := by
    rw [h.header]
    exact Nat.mod_eq_of_lt r.lmK_lt
  obtain ⟨slot, mask, hindex⟩ : ∃ slot mask,
      lmBuildIndex (lmCtxAt im (Prior.header im)) r.lmK = .ok (slot, mask) :=
    lmBuildIndex_total (fun k hk => h.lmCtx hk) r.lmK_lt
  refine ⟨slot, mask, ?_⟩
  simp only [priorParse, if_neg (Nat.not_lt_of_le h.headerSize_le), h.headerOk, hvalid, hlmK,
    hindex, ok_bind, Bool.not_true, Bool.false_eq_true, if_false]
  rfl

theorem Saved.parse_iff (h : Saved B ⟨m, fun _ => 0⟩ r g im) (hl : Linked g.bt g.ctx)
    (hT : Represents B T g) :
    (∃ p, priorParse B im = .ok (some p) ∧ ReadsBack B r g p) ↔ g.ctx.used < g.ctx.nslots := by
  constructor
  · rintro ⟨p, hp, -⟩
    by_contra hfull
    rw [h.parse_full hl hT (not_lt.1 hfull)] at hp
    cases hp
  · intro hroom
    obtain ⟨slot, mask, hp⟩ := h.parse hl hT hroom
    exact ⟨_, hp, h.readsBack hl hT slot mask⟩

/-- After every training that returns, the saved image is accepted and read back as what was
saved exactly where the context table keeps a free slot. -/
theorem bcbPriorSave_loads_iff {al : Nat → Nat → UpdateAlloc} {s : List UInt8}
    {pool : Nat → BtEntry} {ctxPool : Nat → CtxEntry}
    (hrun : btV3TrainAll B al s (btV3Init B pool ctxPool) = .ok g) (hint : g.bt.used ≤ 2 ^ 31)
    {file : List UInt8} (hsave : bcbPriorSave B m r g = some file) :
    (∃ p, priorParse B (.ofList file) = .ok (some p) ∧ ReadsBack B r g p) ↔
      g.ctx.used < g.ctx.nslots := by
  obtain ⟨T, hT, -⟩ := (trainAll_after hrun hint).trained.represents
  exact (bcbPriorSave_saved hsave).parse_iff (trainAll_linked hrun) hT

theorem saveHeader_lt (B : Build) (r : Registered) (hbt : g.bt.used ≤ 2 ^ 31)
    (hctx : g.ctx.used ≤ 2 ^ 31) (hslots : g.ctx.nslots ≤ 2 ^ 40) :
    (saveHeader r (btV3Export B g)).fileSize < 2 ^ 63 := by
  have hbloom : B.bloomBits ≤ 2 ^ 24 := Nat.pow_le_pow_right (by decide) B.bloomLog_le
  have hlmN : (if r.lmK = 0 then 0 else r.lmN) ≤ 24 := by
    split_ifs with hk
    · exact Nat.zero_le _
    · exact (r.lmN_mem hk).2
  have hlm := Nat.mul_le_mul r.lmK_lt.le hlmN
  have hlmK := r.lmK_lt
  have hpos := r.scPos_eq
  have hrec := r.scRec_le
  rw [schemaMax] at hrec
  change align8 (align8 (align8 (align8 (align8 (align8 (align8 (align8 (align8 (align8 168 + 24) +
    g.bt.used * 36) + g.ctx.used * 40) + g.ctx.nslots * 4) + B.bloomBits / 8) +
    r.lmK * (if r.lmK = 0 then 0 else r.lmN)) + r.lmK * 512) + r.scPos) + r.scPos * 512) < 2 ^ 63
  generalize r.lmK * (if r.lmK = 0 then 0 else r.lmN) = n at hlm ⊢
  simp only [align8]
  omega

theorem bcbPriorSave_some (B : Build) (m : Padding) (r : Registered) (hbt : g.bt.used ≤ 2 ^ 31)
    (hctx : g.ctx.used ≤ 2 ^ 31) (hslots : g.ctx.nslots ≤ 2 ^ 40) :
    ∃ file, bcbPriorSave B m r g = some file :=
  ⟨_, if_pos (saveHeader_lt B r hbt hctx hslots)⟩

theorem aba_sizes : ∃ g, btV3TrainAll .plain (fun _ _ => .succeeds) [97, 98, 97]
      (btV3Init .plain (fun _ => blankBt) fun _ => blankCtx) = .ok g ∧
    g.bt.used = 3 ∧ g.ctx.used = 3 ∧ g.ctx.nslots = 2 ^ 16 := by
  have hmap : (btV3TrainAll .plain (fun _ _ => .succeeds) [97, 98, 97]
      (btV3Init .plain (fun _ => blankBt) fun _ => blankCtx)).map
        (fun g => (g.bt.used, g.ctx.used, g.ctx.nslots)) = .ok (3, 3, 2 ^ 16) := by
    decide +kernel
  obtain ⟨g, hrun, hsizes⟩ := map_eq_ok.1 hmap
  obtain ⟨hbt, hsizes⟩ := Prod.mk.inj hsizes
  exact ⟨g, hrun, hbt, Prod.mk.inj hsizes⟩

theorem bcbPriorSave_loads_iff_aba : ∃ g file,
    btV3TrainAll .plain (fun _ _ => .succeeds) [97, 98, 97]
      (btV3Init .plain (fun _ => blankBt) fun _ => blankCtx) = .ok g ∧
    bcbPriorSave .plain ⟨fun _ _ => 0, fun _ _ => 0⟩ .none g = some file ∧
    ((∃ p, priorParse .plain (.ofList file) = .ok (some p) ∧ ReadsBack .plain .none g p) ↔
      g.ctx.used < g.ctx.nslots) := by
  obtain ⟨g, hrun, hbt, hctx, hslots⟩ := aba_sizes
  obtain ⟨file, hsave⟩ := bcbPriorSave_some .plain ⟨fun _ _ => 0, fun _ _ => 0⟩ .none
    (g := g) (by omega) (by omega) (by omega)
  exact ⟨g, file, hrun, hsave, bcbPriorSave_loads_iff hrun (by omega) hsave⟩

/-- The context table that growths have left full: its image is refused. -/
theorem halfAlloc_refused : ∃ g file,
    btV3TrainAll .plain (fun _ _ => halfAlloc) blocks
      (btV3Init .plain (fun _ => blankBt) fun _ => blankCtx) = .ok g ∧
    bcbPriorSave .plain ⟨fun _ _ => 0, fun _ _ => 0⟩ .none g = some file ∧
    priorParse .plain (.ofList file) = .ok none := by
  obtain ⟨g, T, -, hrun, hT, hpairs, hused, hnslots, -⟩ :=
    trainAll_blocks (fun _ => blankBt) fun _ => blankCtx
  have hl := trainAll_linked hrun
  obtain ⟨file, hsave⟩ := bcbPriorSave_some .plain ⟨fun _ _ => 0, fun _ _ => 0⟩ .none
    (g := g) (hT.bt.used.trans_le hpairs) hl.ctxUsed (by omega)
  have h := bcbPriorSave_saved hsave
  exact ⟨g, file, hrun, hsave, h.parse_full hl hT (by omega)⟩

end Bcb.Prior
