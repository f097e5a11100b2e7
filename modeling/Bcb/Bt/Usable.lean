import Bcb.Bt.Training

namespace Bcb.Bt

open Lib

section Table

variable {α : Type} {hash : α → UInt32} {same : α → Bool} {key : UInt32} {t : Table α}

theorem search_total (h : t.Indexed hash) (hroom : t.named < t.reach) (same : α → Bool)
    (key : UInt32) : ∃ hit, t.search same key = .ok hit := by
  obtain ⟨dist, hF⟩ := h.filled
  have hstart := h.start_lt key
  rw [Table.search, h.next_eq, h.start_eq]
  apply Probe.run_total
  · intro k _
    have hlt := Probe.linear_iterate_lt hstart k
    rw [Table.searchTest, Table.readSlot_ok hlt, ok_bind]
    cases hl : link (t.slot ((Probe.linear t.reach)^[k] (key.toNat % t.reach))) with
    | none => exact ⟨_, rfl⟩
    | some i =>
      have hi := (hF.only _ hlt i hl).1
      have hread : t.read i = .ok (t.pool i) :=
        Table.read_ok ((hi.trans_le t.named_le).trans_le h.used_le)
      dsimp only
      rw [hread]
      exact ⟨_, rfl⟩
  · obtain ⟨d, hd, hfree, -⟩ := hF.free hroom hstart
    refine ⟨d, hd.trans_le t.reach_le, .free ((Probe.linear t.reach)^[d] (key.toNat % t.reach)), ?_⟩
    rw [Function.comp_apply] at hfree
    simp only [Table.searchTest, Table.readSlot_ok (Probe.linear_iterate_lt hstart d), ok_bind,
      hfree]
    rfl

theorem place_total (h : t.Indexed hash) (hb : Balanced t) (hused : t.used < 2 ^ 32)
    (hsame : ∀ i < t.named, same (t.pool i) = true → hash (t.pool i) = key) (dynamic : Bool)
    {gr : Growth} (hgr : Whole gr) : ∃ o t', t.place dynamic gr hash same key 2 = .ok (o, t') ∧
      t'.Indexed hash ∧ Balanced t' ∧ t'.used = t.used ∧
      ∀ s, o = some (.free s) → t'.FreeAt key s ∧ t'.used < t'.cap := by
  by_cases hex : ∃ i < t.named, same (t.pool i) = true
  · obtain ⟨i, -, -, hrun⟩ := h.place_found hsame hex dynamic gr
    exact ⟨_, _, hrun, h, hb, rfl, fun s hs => (nomatch hs)⟩
  · have hnew : ∀ i < t.named, ¬ same (t.pool i) = true := fun i hi hs => hex ⟨i, hi, hs⟩
    obtain ⟨t', hp, hrun⟩ := h.place_new hb.cap_pos (hb.used_lt_reach h.used_le hused) hnew dynamic
      gr key
    have hb' := hb.placed hgr (.inr hp.sizes)
    split_ifs at hrun
    · obtain ⟨s, hrun, hfree, hlt⟩ := hrun
      refine ⟨_, t', hrun, hp.indexed, hb', hp.used, ?_⟩
      rintro s ⟨rfl⟩
      exact ⟨hfree, hlt⟩
    · exact ⟨_, t', hrun, hp.indexed, hb', hp.used, fun s hs => (nomatch hs)⟩

theorem Balanced.modify (h : Balanced t) (i : Nat) (f : α → α) : Balanced (t.modify i f) :=
  ⟨h.cap_pos, h.nslots⟩

theorem Balanced.put (h : Balanced t) (s idx : Nat) (e : α) : Balanced (t.put s idx e) :=
  ⟨h.cap_pos, h.nslots⟩

end Table

/-- Both tables have more slots than entries. -/
structure Usable (g : Globals) : Prop where
  bt : g.bt.Indexed btHash
  btBalanced : Balanced g.bt
  ctx : g.ctx.Indexed ctxHash
  ctxBalanced : Balanced g.ctx
  ctxUsed : g.ctx.used ≤ 2 ^ 31

variable {B : Build} {g : Globals} {ctx : List UInt8} {b : UInt8} {al : UpdateAlloc}

theorem btCount_total {t : Table BtEntry} {gr : Growth} (h : t.Indexed btHash) (hb : Balanced t)
    (hused : t.used < 2 ^ 32) (hgr : Whole gr) (hlen : ctx.length ≤ btMaxDepth) :
    ∃ o t', btCount B gr ctx (fnv ctx) b t = .ok (o, t') ∧ t'.Indexed btHash ∧ Balanced t' ∧
      t'.used ≤ t.used + 1 := by
  obtain ⟨o, t', hplace, h', hb', hused', hfree⟩ := place_total h hb hused
    (fun i _ (hs : btSame ctx b (t.pool i) = true) => btHash_of_same hs) B.dynamic hgr
  cases o with
  | none => exact ⟨none, t', by rw [btCount, hplace]; rfl, h', hb', hused'.le.trans (Nat.le_succ _)⟩
  | some hit =>
    cases hit with
    | found i =>
      refine ⟨some none, t'.modify i fun e => { e with freq := e.freq + 1 }, ?_, h'.modify rfl,
        hb'.modify _ _, hused'.le.trans (Nat.le_succ _)⟩
      rw [btCount, hplace]
      rfl
    | free s =>
      obtain ⟨hfree, hlt⟩ := hfree s rfl
      have hint : t'.used < 2 ^ 32 := by
        rw [hused']
        exact hused
      refine ⟨some (some t'.used), t'.put s t'.used (newBtEntry ctx b (t'.pool t'.used)), ?_, ?_,
        hb'.put _ _ _, (congrArg Nat.succ hused').le⟩
      · rw [btCount, hplace]
        rfl
      · apply h'.put _ hlt hint
        rwa [btHash_of_same (newBtEntry_same hlen b _)]

/-- `ctx_get_h` ends; an index past `int` is a write outside the pool. -/
theorem ctxGetH_total {t : Table CtxEntry} {gr : Growth} (h : t.Indexed ctxHash) (hb : Balanced t)
    (hused : t.used ≤ 2 ^ 31) (hgr : Whole gr) (hlen : ctx.length ≤ btMaxDepth) :
    ctxGetH B gr ctx (fnv ctx) t = .error .oob ∨
    ∃ o t', ctxGetH B gr ctx (fnv ctx) t = .ok (o, t') ∧ t'.Indexed ctxHash ∧ Balanced t' ∧
      t'.used ≤ 2 ^ 31 := by
  obtain ⟨o, t', hplace, h', hb', hused', hfree⟩ := place_total h hb (by omega)
    (fun i _ (hs : ctxSame ctx (t.pool i) = true) => ctxHash_of_same hs) B.dynamic hgr
  cases o with
  | none => exact .inr ⟨none, t', by rw [ctxGetH, hplace]; rfl, h', hb', hused'.trans_le hused⟩
  | some hit =>
    cases hit with
    | found i =>
      exact .inr ⟨some i, t', by rw [ctxGetH, hplace]; rfl, h', hb', hused'.trans_le hused⟩
    | free s =>
      obtain ⟨hfree, hlt⟩ := hfree s rfl
      have hmod : t'.used % 2 ^ 32 = t'.used := Nat.mod_eq_of_lt (by omega)
      by_cases hint : t'.used < 2 ^ 31
      · right
        refine ⟨some t'.used, t'.put s t'.used (newCtxEntry ctx (t'.pool t'.used)), ?_, ?_,
          hb'.put _ _ _, hint⟩
        · rw [ctxGetH, hplace, ok_bind]
          dsimp only
          rw [hmod, if_pos hint]
          rfl
        · apply h'.put _ hlt (by omega)
          rwa [ctxHash_of_same (newCtxEntry_same hlen _)]
      · left
        rw [ctxGetH, hplace, ok_bind]
        dsimp only
        rw [hmod, if_neg hint]
        rfl

theorem chainNew_usable {bt : Table BtEntry} {cs : Table CtxEntry} (hbt : bt.Indexed btHash)
    (hbtB : Balanced bt) (hcs : cs.Indexed ctxHash) (hcsB : Balanced cs) (new : Option Nat)
    (cc : Nat) : ((chainNew new cc bt cs).1.Indexed btHash ∧ Balanced (chainNew new cc bt cs).1) ∧
      (chainNew new cc bt cs).2.Indexed ctxHash ∧ Balanced (chainNew new cc bt cs).2 ∧
      (chainNew new cc bt cs).2.used = cs.used := by
  cases new with
  | none => exact ⟨⟨hbt, hbtB⟩, hcs, hcsB, rfl⟩
  | some j =>
    have hbt' := hbt.modify (i := j)
      (f := fun e => { e with ctxNext := (cs.pool cc).firstEntry }) rfl
    have hcs' := hcs.modify (i := cc) (f := fun e => { e with
      uniqueNext := e.uniqueNext + 1
      firstEntry := toInt32 j }) rfl
    exact ⟨⟨hbt', hbtB.cap_pos, hbtB.nslots⟩, hcs', ⟨hcsB.cap_pos, hcsB.nslots⟩, rfl⟩

theorem btUpdate_usable (B : Build) (ctx : List UInt8) (b : UInt8) (h : Usable g)
    (hused : g.bt.used < 2 ^ 32) (hbt : Whole al.bt) (hctx : Whole al.ctx) :
    btUpdate B al ctx b g = .error .oob ∨
      ∃ g', btUpdate B al ctx b g = .ok g' ∧ Usable g' ∧ g'.bt.used ≤ g.bt.used + 1 ∧
        g'.window = g.window := by
  by_cases hguard : ctx.length = 0 ∨ btMaxDepth < ctx.length
  · exact .inr ⟨g, by rw [btUpdate, if_pos hguard]; rfl, h, Nat.le_succ _, rfl⟩
  · obtain ⟨-, hlen⟩ := not_or.1 hguard
    obtain ⟨o, bt, hcount, hbt', hbtB, hle⟩ :=
      btCount_total (B := B) (b := b) h.bt h.btBalanced hused hbt (not_lt.1 hlen)
    rw [btUpdate, if_neg hguard]
    dsimp only
    rw [hcount, ok_bind]
    cases o with
    | none => exact .inr ⟨_, rfl, ⟨hbt', hbtB, h.ctx, h.ctxBalanced, h.ctxUsed⟩, hle, rfl⟩
    | some new =>
      dsimp only
      rcases ctxGetH_total (B := B) h.ctx h.ctxBalanced h.ctxUsed hctx (not_lt.1 hlen) with
        hoob | ⟨o, cs, hget, hcs, hcsB, hcsUsed⟩
      · left
        rw [hoob, error_bind]
      · right
        rw [hget, ok_bind]
        cases o with
        | none => exact ⟨_, rfl, ⟨hbt', hbtB, hcs, hcsB, hcsUsed⟩, hle, rfl⟩
        | some cc =>
          obtain ⟨⟨h1, h2⟩, h3, h4, h5⟩ := chainNew_usable hbt' hbtB
            (hcs.modify (i := cc) (f := fun e => { e with totalFreq := e.totalFreq + 1 }) rfl)
            (hcsB.modify cc _) new cc
          exact ⟨_, rfl, ⟨h1, h2, h3, h4, h5.trans_le hcsUsed⟩,
            (chainNew_used _ _ _ _).trans_le hle, rfl⟩

/-- The growths of a call never leave the slots behind the pool. -/
def WholeCall (al : Nat → UpdateAlloc) : Prop := ∀ n, Whole (al n).bt ∧ Whole (al n).ctx

theorem btV3Train_usable {al : Nat → UpdateAlloc} (h : Usable g)
    (hused : g.bt.used + btMaxDepth ≤ 2 ^ 32) (hal : WholeCall al) :
    btV3Train B al b g = .error .oob ∨ ∃ g', btV3Train B al b g = .ok g' ∧ Usable g' := by
  unfold btV3Train
  split_ifs
  · exact .inr ⟨_, rfl, h.bt, h.btBalanced, h.ctx, h.ctxBalanced, h.ctxUsed⟩
  · have hloop := foldlM_cases (l := List.range' 1 g.window.bytes.length)
      (f := fun g n => btUpdate B (al n) (g.window.last n) b g) (E := fun e => e = .oob)
      (P := fun pre g1 => Usable g1 ∧ g1.bt.used ≤ g.bt.used + pre.length ∧ g1.window = g.window)
      ⟨h, le_rfl, rfl⟩ ?_
    · rcases hloop with ⟨e, hrun, rfl⟩ | ⟨g1, hrun, h1, -⟩
      · left
        rw [btUpdates, hrun, error_bind]
      · right
        rw [btUpdates, hrun, ok_bind]
        exact ⟨_, rfl, h1.bt, h1.btBalanced, h1.ctx, h1.ctxBalanced, h1.ctxUsed⟩
    · rintro pre n post hl g1 ⟨h1, hle, hwindow⟩
      have hlen := congrArg List.length hl
      have hw := g.window.length_le
      rw [List.length_range', List.length_append, List.length_cons] at hlen
      have hlt : g1.bt.used < 2 ^ 32 := by omega
      rcases btUpdate_usable B (g1.window.last n) b h1 hlt (hal n).1 (hal n).2
        with hoob | ⟨g2, hrun, h2, hle', hwindow'⟩
      · exact .inl ⟨_, hoob, rfl⟩
      · refine .inr ⟨g2, hrun, h2, ?_, hwindow'.trans hwindow⟩
        rw [List.length_append, List.length_singleton]
        omega

/-- The globals that calls reach in which no growth gets a pool without its slots. -/
inductive WholeRun (B : Build) : Globals → Prop
  | init (pool : Nat → BtEntry) (ctxPool : Nat → CtxEntry) : WholeRun B (btV3Init B pool ctxPool)
  | train {g g' : Globals} {al : Nat → UpdateAlloc} {b : UInt8} : WholeRun B g → WholeCall al →
      g.bt.used + btMaxDepth ≤ 2 ^ 32 → btV3Train B al b g = .ok g' → WholeRun B g'

theorem init_usable (hB : B.sizing = .dynamic) (pool : Nat → BtEntry) (ctxPool : Nat → CtxEntry) :
    Usable (btV3Init B pool ctxPool) := by
  have hrep := init_represents B pool ctxPool
  have hne : B.sizing ≠ .fixed 0 := by
    rw [hB]
    exact nofun
  obtain ⟨hbt, hctx⟩ := init_balanced hne pool ctxPool
  exact ⟨hrep.bt.indexed, hbt, hrep.ctx.indexed, hctx, Nat.zero_le _⟩

theorem WholeRun.usable (hB : B.sizing = .dynamic) (h : WholeRun B g) : Usable g := by
  induction h with
  | init pool ctxPool => exact init_usable hB pool ctxPool
  | train _ hal hused hrun ih =>
    rcases btV3Train_usable ih hused hal with hoob | ⟨g', hrun', h'⟩
    · rw [hoob] at hrun
      cases hrun
    · obtain rfl := Except.ok.inj (hrun'.symm.trans hrun)
      exact h'

/-- Where the slots grow with the pools, every table keeps a free slot, every search ends, and
no later call gets lost in one. -/
theorem wholeRun_usable (hB : B.sizing = .dynamic) (h : WholeRun B g) :
    (g.bt.used < g.bt.nslots ∧ g.ctx.used < g.ctx.nslots) ∧
    (g.bt.used ≤ 2 ^ 32 → ∀ same key, ∃ hit, g.bt.search same key = .ok hit) ∧
    (∀ same key, ∃ hit, g.ctx.search same key = .ok hit) ∧
    ∀ al b, WholeCall al → g.bt.used + btMaxDepth ≤ 2 ^ 32 →
      btV3Train B al b g ≠ .error .diverge := by
  have hu := h.usable hB
  have hbt := hu.btBalanced.used_lt hu.bt.used_le
  have hctx := hu.ctxBalanced.used_lt hu.ctx.used_le
  refine ⟨⟨hbt, hctx⟩, fun hle => search_total hu.bt ?_, search_total hu.ctx ?_, ?_⟩
  · have hnamed := g.bt.named_le
    simp only [Table.named, Table.reach] at *
    omega
  · have hnamed := g.ctx.named_le
    have hle := hu.ctxUsed
    simp only [Table.named, Table.reach] at *
    omega
  · intro al b hal hused hdiverge
    rcases btV3Train_usable (B := B) (b := b) hu hused hal with hoob | ⟨g', hrun, -⟩
    · rw [hoob] at hdiverge
      cases hdiverge
    · rw [hrun] at hdiverge
      cases hdiverge

theorem wholeRun_usable_ab : ∃ g g',
    btV3Train .plain (fun _ => .succeeds) 97
      (btV3Init .plain (fun _ => blankBt) fun _ => blankCtx) = .ok g ∧
    btV3Train .plain (fun _ => .succeeds) 98 g = .ok g' ∧
    (g'.bt.used < g'.bt.nslots ∧ g'.ctx.used < g'.ctx.nslots) ∧
    (g'.bt.used ≤ 2 ^ 32 → ∀ same key, ∃ hit, g'.bt.search same key = .ok hit) ∧
    (∀ same key, ∃ hit, g'.ctx.search same key = .ok hit) ∧
    ∀ al b, WholeCall al → g'.bt.used + btMaxDepth ≤ 2 ^ 32 →
      btV3Train .plain al b g' ≠ .error .diverge := by
  have hwhole : WholeCall fun _ => .succeeds := fun _ => ⟨fun _ => rfl, fun _ => rfl⟩
  let g : Globals := { btV3Init .plain (fun _ => blankBt) (fun _ => blankCtx) with
    window := Window.empty.push 97 }
  have hg : btV3Train .plain (fun _ => .succeeds) 97
      (btV3Init .plain (fun _ => blankBt) fun _ => blankCtx) = .ok g := rfl
  obtain ⟨g', hg'⟩ : ∃ g', btV3Train .plain (fun _ => .succeeds) 98 g = .ok g' := by
    apply exists_ok_of_map (f := fun g => g.bt.used) (b := 1)
    decide +kernel
  have hrun : WholeRun .plain g :=
    .train (.init (fun _ => blankBt) fun _ => blankCtx) hwhole (Nat.le_of_ble_eq_true rfl) hg
  have hrun' : WholeRun .plain g' := .train hrun hwhole (Nat.le_of_ble_eq_true rfl) hg'
  exact ⟨g, g', hg, hg', wholeRun_usable rfl hrun'⟩

end Bcb.Bt
