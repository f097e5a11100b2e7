import Bcb.Bt.Exact
import Bcb.Bt.Validate
import Mathlib.Tactic.Ring

namespace Bcb.Bt

open Lib

/-- `BtV3Mem`. -/
structure BtV3Mem where
  btPool : Nat
  btSlot : Nat
  ctxPool : Nat
  ctxSlot : Nat
  bloom : Nat
  luts : Nat
  total : Nat
  btEntrySz : Nat
  ctxEntrySz : Nat
  btPoolN : Nat
  ctxPoolN : Nat
  bloomBits : Nat
  lutN : Nat
  isMcu : Bool

/-- A product of `unsigned long`. -/
def mulLong (a b : Nat) : Nat := a * b % 2 ^ 64

/-- `bt_v3_footprint`.  Before `bt_v3_init` the sizes are 0, and those of the build count. -/
def btV3Footprint (B : Build) (g : Globals) : BtV3Mem :=
  let pcap := if g.bt.cap ≠ 0 then g.bt.cap else B.poolCap0
  let psl := if g.bt.nslots ≠ 0 then g.bt.nslots else B.btNslots0
  let ccap := if g.ctx.cap ≠ 0 then g.ctx.cap else B.ctxCap0
  let csl := if g.ctx.nslots ≠ 0 then g.ctx.nslots else B.ctxNslots0
  let btPool := mulLong btEntrySize pcap
  let btSlot := mulLong 4 psl
  let ctxPool := mulLong ctxEntrySize ccap
  let ctxSlot := mulLong 4 csl
  let bloom := B.bloomBits / 8
  let luts := mulLong 4 (B.pres + B.exp2Fn)
  { btPool := btPool
    btSlot := btSlot
    ctxPool := ctxPool
    ctxSlot := ctxSlot
    bloom := bloom
    luts := luts
    total := (btPool + btSlot + ctxPool + ctxSlot + bloom + luts) % 2 ^ 64
    btEntrySz := btEntrySize
    ctxEntrySz := ctxEntrySize
    btPoolN := pcap
    ctxPoolN := ccap
    bloomBits := B.bloomBits
    lutN := B.pres
    isMcu := B.sizing = .mcu }

/-! ## One table -/

/-- A table doubles only when it is full, and its slots only with it. -/
structure Tight {α : Type} (cap0 : Nat) (t : Table α) : Prop where
  cap : t.cap ≤ max cap0 (2 * t.used)
  nslots : t.nslots ≤ 2 * t.cap

section Tables

variable {α : Type} {cap0 n : Nat} {t t' : Table α} {dynamic : Bool} {al : Growth}
  {hash : α → UInt32} {same : α → Bool} {key : UInt32}

theorem rehash_sizes {i : Nat} (h : Table.rehash hash t i = .ok t') :
    t'.used = t.used ∧ t'.cap = t.cap ∧ t'.nslots = t.nslots := by
  obtain ⟨e, -, h⟩ := bind_eq_ok.1 h
  obtain ⟨s, -, h⟩ := bind_eq_ok.1 h
  obtain rfl := Except.ok.inj h
  exact ⟨rfl, rfl, rfl⟩

theorem Tight.grow {ok : Bool} (h : Tight cap0 t) (hfull : t.cap ≤ t.used)
    (hrun : t.grow dynamic al hash = .ok (ok, t')) : Tight cap0 t' ∧ t'.used = t.used := by
  have hdouble : t.cap * 2 ≤ max cap0 (2 * t.used) :=
    le_max_of_le_right (by omega)
  unfold Table.grow at hrun
  split_ifs at hrun
  · cases hrun
    exact ⟨h, rfl⟩
  · cases hrun
    exact ⟨h, rfl⟩
  · cases hrun
    have hn := h.nslots
    exact ⟨⟨hdouble, by change t.nslots ≤ 2 * (t.cap * 2); omega⟩, rfl⟩
  · obtain ⟨t1, hloop, hrun⟩ := bind_eq_ok.1 hrun
    cases hrun
    obtain ⟨hused, hcap, hnslots⟩ := foldlM_inv
      (P := fun _ t1 => t1.used = t.used ∧ t1.cap = t.cap * 2 ∧ t1.nslots = t.nslots * 2)
      hloop ⟨rfl, rfl, rfl⟩ fun _ _ _ _ _ ⟨h1, h2, h3⟩ hstep => by
        obtain ⟨h1', h2', h3'⟩ := rehash_sizes hstep
        exact ⟨h1'.trans h1, h2'.trans h2, h3'.trans h3⟩
    have hn := h.nslots
    refine ⟨⟨?_, ?_⟩, hused⟩
    · rwa [hcap, hused]
    · rw [hnslots, hcap]
      omega

theorem Tight.place {o : Option Hit} (h : Tight cap0 t)
    (hrun : t.place dynamic al hash same key n = .ok (o, t')) :
    Tight cap0 t' ∧ t'.used = t.used := by
  induction n generalizing t with
  | zero => cases hrun
  | succ n ih =>
    obtain ⟨hit, -, hrun⟩ := bind_eq_ok.1 hrun
    cases hit with
    | found i =>
      cases hrun
      exact ⟨h, rfl⟩
    | free s =>
      dsimp only at hrun
      split_ifs at hrun with hlt
      · cases hrun
        exact ⟨h, rfl⟩
      · obtain ⟨⟨grown, t1⟩, hgrow, hrun⟩ := bind_eq_ok.1 hrun
        obtain ⟨h1, hused⟩ := h.grow (not_lt.1 hlt) hgrow
        dsimp only at hrun
        split_ifs at hrun
        · obtain ⟨h2, hused'⟩ := ih h1 hrun
          exact ⟨h2, hused'.trans hused⟩
        · cases hrun
          exact ⟨h1, hused⟩

theorem Tight.put (h : Tight cap0 t) (s idx : Nat) (e : α) : Tight cap0 (t.put s idx e) := by
  have hcap := h.cap
  refine ⟨?_, h.nslots⟩
  change t.cap ≤ max cap0 (2 * (t.used + 1))
  omega

theorem Tight.modify (h : Tight cap0 t) (i : Nat) (f : α → α) : Tight cap0 (t.modify i f) :=
  ⟨h.cap, h.nslots⟩

theorem Tight.size_le {nslots0 : Nat} (h : Tight cap0 t) (h0 : nslots0 ≤ 2 * cap0) (size : Nat) :
    mulLong size (if t.cap ≠ 0 then t.cap else cap0) +
      mulLong 4 (if t.nslots ≠ 0 then t.nslots else nslots0) ≤
        (size + 8) * max cap0 (2 * t.used) := by
  have hcap := h.cap
  have hnslots := h.nslots
  have hcap0 : cap0 ≤ max cap0 (2 * t.used) := le_max_left _ _
  generalize max cap0 (2 * t.used) = room at hcap hcap0 ⊢
  have hp : (if t.cap ≠ 0 then t.cap else cap0) ≤ room := by
    split_ifs <;> omega
  have hs : (if t.nslots ≠ 0 then t.nslots else nslots0) ≤ 2 * room := by
    split_ifs <;> omega
  calc _ ≤ size * room + 4 * (2 * room) := Nat.add_le_add
        ((Nat.mod_le _ _).trans (Nat.mul_le_mul_left _ hp))
        ((Nat.mod_le _ _).trans (Nat.mul_le_mul_left _ hs))
    _ = (size + 8) * room := by ring

end Tables

/-! ## Training -/

/-- Tables of at most `n` entries, and of the room that these need. -/
structure Sparing (B : Build) (n : Nat) (g : Globals) : Prop where
  bt : Tight B.poolCap0 g.bt
  ctx : Tight B.ctxCap0 g.ctx
  btUsed : g.bt.used ≤ n
  ctxUsed : g.ctx.used ≤ n

variable {B : Build} {n : Nat} {g g' : Globals} {b : UInt8}

theorem Sparing.mono {n' : Nat} (h : Sparing B n g) (hle : n ≤ n') : Sparing B n' g :=
  ⟨h.bt, h.ctx, h.btUsed.trans hle, h.ctxUsed.trans hle⟩

theorem btNslots0_le (B : Build) : B.btNslots0 ≤ 2 * B.poolCap0 := by
  unfold Build.btNslots0 Build.poolCap0
  cases B.sizing <;> simp [pow_succ, Nat.mul_comm]

theorem ctxNslots0_le (B : Build) : B.ctxNslots0 ≤ 2 * B.ctxCap0 := by
  unfold Build.ctxNslots0 Build.ctxCap0
  cases B.sizing with
  | mcu => norm_num
  | dynamic => norm_num
  | fixed k => cases k <;> simp [pow_succ, Nat.mul_comm]

theorem btV3Init_sparing (B : Build) (pool : Nat → BtEntry) (ctxPool : Nat → CtxEntry) :
    Sparing B 0 (btV3Init B pool ctxPool) where
  bt := ⟨le_max_left _ _, btNslots0_le B⟩
  ctx := ⟨le_max_left _ _, ctxNslots0_le B⟩
  btUsed := le_rfl
  ctxUsed := le_rfl

section Update

variable {cap0 : Nat} {ctx : List UInt8} {ch : UInt32}

theorem Tight.btCount {gr : Growth} {t t' : Table BtEntry} {o : Option (Option Nat)}
    (h : Tight cap0 t) (hrun : btCount B gr ctx ch b t = .ok (o, t')) :
    Tight cap0 t' ∧ t'.used ≤ t.used + 1 := by
  obtain ⟨⟨hit, t1⟩, hplace, hrun⟩ := bind_eq_ok.1 hrun
  obtain ⟨h1, hused⟩ := h.place hplace
  cases hit with
  | none =>
    cases hrun
    exact ⟨h1, by omega⟩
  | some hit =>
    cases hit with
    | found i =>
      cases hrun
      exact ⟨h1.modify _ _, hused.trans_le (Nat.le_succ _)⟩
    | free s =>
      cases hrun
      exact ⟨h1.put _ _ _, Nat.succ_le_succ hused.le⟩

theorem Tight.ctxGetH {gr : Growth} {t t' : Table CtxEntry} {o : Option Nat}
    (h : Tight cap0 t) (hrun : ctxGetH B gr ctx ch t = .ok (o, t')) :
    Tight cap0 t' ∧ t'.used ≤ t.used + 1 := by
  obtain ⟨⟨hit, t1⟩, hplace, hrun⟩ := bind_eq_ok.1 hrun
  obtain ⟨h1, hused⟩ := h.place hplace
  cases hit with
  | none =>
    cases hrun
    exact ⟨h1, by omega⟩
  | some hit =>
    cases hit with
    | found i =>
      cases hrun
      exact ⟨h1, by omega⟩
    | free s =>
      dsimp only at hrun
      split_ifs at hrun
      cases hrun
      exact ⟨h1.put _ _ _, Nat.succ_le_succ hused.le⟩

theorem Tight.chainNew {cap0' : Nat} {bt : Table BtEntry} {cs : Table CtxEntry}
    (hbt : Tight cap0 bt) (hcs : Tight cap0' cs) (new : Option Nat) (cc : Nat) :
    (Tight cap0 (chainNew new cc bt cs).1 ∧ (chainNew new cc bt cs).1.used = bt.used) ∧
      Tight cap0' (chainNew new cc bt cs).2 ∧ (chainNew new cc bt cs).2.used = cs.used := by
  cases new with
  | none => exact ⟨⟨hbt, rfl⟩, hcs, rfl⟩
  | some j => exact ⟨⟨⟨hbt.cap, hbt.nslots⟩, rfl⟩, ⟨hcs.cap, hcs.nslots⟩, rfl⟩

theorem Sparing.update {al : UpdateAlloc} (h : Sparing B n g)
    (hrun : btUpdate B al ctx b g = .ok g') : Sparing B (n + 1) g' := by
  unfold btUpdate at hrun
  split_ifs at hrun
  · cases hrun
    exact h.mono (Nat.le_succ n)
  · obtain ⟨⟨o, bt⟩, hcount, hrun⟩ := bind_eq_ok.1 hrun
    obtain ⟨hbt, hbtUsed⟩ := h.bt.btCount hcount
    have hbtUsed := hbtUsed.trans (Nat.succ_le_succ h.btUsed)
    cases o with
    | none =>
      cases hrun
      exact ⟨hbt, h.ctx, hbtUsed, h.ctxUsed.trans (Nat.le_succ n)⟩
    | some new =>
      obtain ⟨⟨o, cs⟩, hget, hrun⟩ := bind_eq_ok.1 hrun
      obtain ⟨hcs, hcsUsed⟩ := h.ctx.ctxGetH hget
      have hcsUsed := hcsUsed.trans (Nat.succ_le_succ h.ctxUsed)
      cases o with
      | none =>
        cases hrun
        exact ⟨hbt, hcs, hbtUsed, hcsUsed⟩
      | some cc =>
        cases hrun
        obtain ⟨⟨hbt', hbtEq⟩, hcs', hcsEq⟩ := hbt.chainNew (hcs.modify cc fun e =>
          { e with totalFreq := e.totalFreq + 1 }) new cc
        exact ⟨hbt', hcs', hbtEq.trans_le hbtUsed, hcsEq.trans_le hcsUsed⟩

theorem Sparing.train {al : Nat → UpdateAlloc} (h : Sparing B n g)
    (hrun : btV3Train B al b g = .ok g') : Sparing B (n + btMaxDepth) g' := by
  unfold btV3Train at hrun
  split_ifs at hrun
  · cases hrun
    have h1 := h.mono (Nat.le_add_right n btMaxDepth)
    exact ⟨h1.bt, h1.ctx, h1.btUsed, h1.ctxUsed⟩
  · obtain ⟨g1, hupdates, hrun⟩ := bind_eq_ok.1 hrun
    cases hrun
    have hloop := foldlM_inv (P := fun pre g1 => Sparing B (n + pre.length) g1) hupdates h
      fun pre m _ g1 g2 h1 hstep => by
        rw [List.length_append, List.length_singleton, ← Nat.add_assoc]
        exact h1.update hstep
    rw [List.length_range'] at hloop
    have h1 := hloop.mono (Nat.add_le_add_left g.window.length_le n)
    exact ⟨h1.bt, h1.ctx, h1.btUsed, h1.ctxUsed⟩

end Update

/-- Whatever the allocations of a training do, the tables have the room of twice their entries at
most, which are no more than 24 for each byte. -/
theorem btV3Footprint_le {al : Nat → Nat → UpdateAlloc} {s : List UInt8} {pool : Nat → BtEntry}
    {ctxPool : Nat → CtxEntry} (hrun : btV3TrainAll B al s (btV3Init B pool ctxPool) = .ok g) :
    (btV3Footprint B g).total ≤ 44 * max B.poolCap0 (2 * g.bt.used) +
        48 * max B.ctxCap0 (2 * g.ctx.used) + B.bloomBits / 8 + 4 * (B.pres + B.exp2Fn) ∧
      g.bt.used ≤ btMaxDepth * s.length ∧ g.ctx.used ≤ btMaxDepth * s.length := by
  have h : Sparing B (btMaxDepth * s.zipIdx.length) g := by
    refine foldlM_inv (P := fun pre g => Sparing B (btMaxDepth * pre.length) g) hrun
      (btV3Init_sparing B pool ctxPool) fun pre x _ g1 g2 h1 hstep => ?_
    rw [List.length_append, List.length_singleton, Nat.mul_add, Nat.mul_one]
    exact h1.train hstep
  rw [List.length_zipIdx] at h
  refine ⟨?_, h.btUsed, h.ctxUsed⟩
  have hbt := h.bt.size_le (btNslots0_le B) btEntrySize
  have hctx := h.ctx.size_le (ctxNslots0_le B) ctxEntrySize
  have hluts : mulLong 4 (B.pres + B.exp2Fn) ≤ 4 * (B.pres + B.exp2Fn) := Nat.mod_le _ _
  refine (Nat.mod_le _ _).trans ?_
  simp only [btEntrySize, ctxEntrySize] at hbt hctx ⊢
  omega

theorem btV3Footprint_le_aba : ∃ g, btV3TrainAll .plain (fun _ _ => .succeeds) [97, 98, 97]
      (btV3Init .plain (fun _ => blankBt) fun _ => blankCtx) = .ok g ∧
    (btV3Footprint .plain g).total ≤ 44 * max (2 ^ 16) (2 * g.bt.used) +
        48 * max (2 ^ 15) (2 * g.ctx.used) + 2 ^ 24 / 8 + 4 * (2 ^ 16 + 2 ^ 16) ∧
      g.bt.used ≤ 24 * 3 ∧ g.ctx.used ≤ 24 * 3 := by
  obtain ⟨g, hrun, -⟩ := trainAll_counted (B := .plain) (fun _ => blankBt) (fun _ => blankCtx)
    (s := [97, 98, 97]) (.inl rfl) (by decide)
  exact ⟨g, hrun, btV3Footprint_le hrun⟩

end Bcb.Bt
