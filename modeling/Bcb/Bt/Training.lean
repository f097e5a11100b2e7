import Bcb.Bt.Linked
import Bcb.Bt.Represents

namespace Bcb.Bt

open Lib

variable {B : Build} {T : Counts} {g g' : Globals} {ctx : List UInt8} {b : UInt8}
  {al : UpdateAlloc}

/-! ## Entries are never lost -/

theorem btCount_used {gr : Growth} {ch : UInt32} {o : Option (Option Nat)} {t t' : Table BtEntry}
    (h : btCount B gr ctx ch b t = .ok (o, t')) : t.used ≤ t'.used := by
  obtain ⟨⟨hit, t1⟩, hplace, h⟩ := bind_eq_ok.1 h
  have hused := (place_kept hplace).1.used
  cases hit with
  | none =>
    cases h
    exact hused.ge
  | some hit =>
    cases hit with
    | found i =>
      cases h
      exact hused.ge
    | free s =>
      cases h
      exact hused.symm.trans_le (Nat.le_succ _)

@[simp]
theorem chainNew_used (new : Option Nat) (cc : Nat) (bt : Table BtEntry) (cs : Table CtxEntry) :
    (chainNew new cc bt cs).1.used = bt.used := by
  cases new with
  | none => rfl
  | some j => rfl

theorem btUpdate_btCount (hpos : 0 < ctx.length) (hlen : ctx.length ≤ btMaxDepth)
    (h : btUpdate B al ctx b g = .ok g') : ∃ o bt,
      btCount B al.bt ctx (fnv ctx) b g.bt = .ok (o, bt) ∧ g'.bt.used = bt.used ∧
        (o ≠ none → ∃ r, ctxGetH B al.ctx ctx (fnv ctx) g.ctx = .ok r) := by
  rw [btUpdate, if_neg (not_or.2 ⟨hpos.ne', not_lt.2 hlen⟩)] at h
  obtain ⟨⟨o, bt⟩, hcount, h⟩ := bind_eq_ok.1 h
  refine ⟨o, bt, hcount, ?_⟩
  cases o with
  | none =>
    cases h
    exact ⟨rfl, fun hne => absurd rfl hne⟩
  | some new =>
    obtain ⟨⟨o, cs⟩, hget, h⟩ := bind_eq_ok.1 h
    cases o with
    | none =>
      cases h
      exact ⟨rfl, fun _ => ⟨_, hget⟩⟩
    | some cc =>
      cases h
      exact ⟨chainNew_used _ _ _ _, fun _ => ⟨_, hget⟩⟩

theorem btUpdate_used (h : btUpdate B al ctx b g = .ok g') : g.bt.used ≤ g'.bt.used := by
  by_cases hguard : ctx.length = 0 ∨ btMaxDepth < ctx.length
  · rw [btUpdate, if_pos hguard] at h
    cases h
    exact le_rfl
  · obtain ⟨h0, hlen⟩ := not_or.1 hguard
    obtain ⟨o, bt, hcount, hused, -⟩ := btUpdate_btCount (Nat.pos_of_ne_zero h0) (not_lt.1 hlen) h
    exact (btCount_used hcount).trans hused.ge

/-! ## Slots for every entry -/

/-- No more than every second slot is taken. -/
structure Balanced {α : Type} (t : Table α) : Prop where
  cap_pos : 0 < t.cap
  nslots : t.nslots = t.cap * 2

/-- The slots grow where the pool does. -/
def Whole (gr : Growth) : Prop := gr.pool = true → gr.slot = true

theorem Balanced.placed {α : Type} {t t' : Table α} (h : Balanced t) {dynamic : Bool}
    {gr : Growth} (hgr : Whole gr) (hs : (t'.cap, t'.nslots) = (t.cap, t.nslots) ∨
      (t'.cap, t'.nslots) = t.placedSizes dynamic gr) : Balanced t' := by
  have hcap := h.cap_pos
  have hslots := h.nslots
  unfold Table.placedSizes Table.grownSizes at hs
  split_ifs at hs with hroom hpool hslot <;> simp only [Prod.mk.injEq, or_self] at hs
  · exact ⟨by omega, by omega⟩
  · rcases hs with ⟨h1, h2⟩ | ⟨h1, h2⟩ <;> exact ⟨by omega, by omega⟩
  · exact absurd (hgr (Bool.and_eq_true_iff.1 hpool).2) hslot
  · exact ⟨by omega, by omega⟩

theorem Balanced.used_lt {α : Type} {t : Table α} (h : Balanced t) (hle : t.used ≤ t.cap) :
    t.used < t.nslots := by
  have hcap := h.cap_pos
  have hslots := h.nslots
  omega

theorem Balanced.used_lt_reach {α : Type} {t : Table α} (h : Balanced t) (hle : t.used ≤ t.cap)
    (hint : t.used < 2 ^ 32) : t.used < t.reach :=
  Nat.lt_min.2 ⟨h.used_lt hle, hint⟩

/-! ## Updates that return -/

theorem btUpdate_returned (h : Represents B T g) (hpos : 0 < ctx.length)
    (hlen : ctx.length ≤ btMaxDepth) (hbtCap : 0 < g.bt.cap) (hctxCap : 0 < g.ctx.cap)
    (hrun : btUpdate B al ctx b g = .ok g') (hint : g'.bt.used ≤ 2 ^ 31) :
    Updated B al T (ctx, b) g g' := by
  obtain ⟨o, bt, hcount, hused, hget⟩ := btUpdate_btCount hpos hlen hrun
  have hle : g.bt.used ≤ 2 ^ 31 := (btUpdate_used hrun).trans hint
  have hpairs : T.pairs.length ≤ 2 ^ 31 := h.bt.used ▸ hle
  have hbt : (ctx, b) ∈ T.pairs ∨ g.bt.used < g.bt.reach := by
    by_contra hno
    obtain ⟨hmem, hfull⟩ := not_or.1 hno
    rw [h.bt.btCount_full hle hmem (not_lt.1 hfull)] at hcount
    cases hcount
  obtain ⟨bt', hcount', hP', -⟩ := h.counted hlen hbtCap hbt hpairs al.bt
  obtain ⟨hsame, rfl⟩ := Prod.mk.inj (Except.ok.inj (hcount'.symm.trans hcount))
  have hint' : (T.updateIn B al g (ctx, b)).pairs.length ≤ 2 ^ 31 := by
    rw [Counts.updateIn, (Tally.update_pairs _ _ _ _).1, ← hP'.used, ← hused]
    exact hint
  have hctx : ((T.see ctx).recordPair (g.bt.hasRoom B.dynamic al.bt) (ctx, b)).1 = none ∨
      ctx ∈ T.ctxs ∨ g.ctx.used < g.ctx.reach := by
    by_contra hno
    obtain ⟨hnone, hno⟩ := not_or.1 hno
    obtain ⟨hmem, hfull⟩ := not_or.1 hno
    obtain ⟨r, hr⟩ := hget (hsame ▸ hnone)
    have hctxs : g.ctx.used ≤ 2 ^ 31 := h.ctx.used ▸ h.sound.ctxs_length_le.trans hpairs
    rw [h.ctx.ctxGetH_full hctxs hmem (not_lt.1 hfull)] at hr
    cases hr
  obtain ⟨g1, hrun1, hupd⟩ := btUpdate_spec h hpos hlen hbtCap hctxCap hbt hctx hint'
  obtain rfl := Except.ok.inj (hrun1.symm.trans hrun)
  exact hupd

/-! ## Whole runs -/

/-- The tables after updates for the contexts `us`. -/
structure Trained (B : Build) (us : List (List UInt8)) (g : Globals) : Prop where
  represents : ∃ T, Represents B T g ∧ T.seen = us
  btCap : 0 < g.bt.cap
  ctxCap : 0 < g.ctx.cap

theorem Updated.btSizes_or (h : Updated B al T (ctx, b) g g') :
    (g'.bt.cap, g'.bt.nslots) = (g.bt.cap, g.bt.nslots) ∨
      (g'.bt.cap, g'.bt.nslots) = g.bt.placedSizes B.dynamic al.bt := by
  have hsizes := h.btSizes
  split_ifs at hsizes
  · exact .inl hsizes
  · exact .inr hsizes

theorem Updated.ctxSizes_or (h : Updated B al T (ctx, b) g g') :
    (g'.ctx.cap, g'.ctx.nslots) = (g.ctx.cap, g.ctx.nslots) ∨
      (g'.ctx.cap, g'.ctx.nslots) = g.ctx.placedSizes B.dynamic al.ctx := by
  have hsizes := h.ctxSizes
  split_ifs at hsizes
  · exact .inl hsizes
  · exact .inr hsizes

@[simp] theorem hasRoom_fixed {α : Type} (t : Table α) (gr : Growth) :
    t.hasRoom false gr = decide (t.used < t.cap) := Bool.or_false _

@[simp] theorem placedSizes_fixed {α : Type} (t : Table α) (gr : Growth) :
    t.placedSizes false gr = (t.cap, t.nslots) := by
  simp [Table.placedSizes, Table.grownSizes]

theorem Updated.fixed (h : Updated B al T (ctx, b) g g') (hB : B.dynamic = false) :
    (g'.bt.cap, g'.bt.nslots) = (g.bt.cap, g.bt.nslots) ∧
      (g'.ctx.cap, g'.ctx.nslots) = (g.ctx.cap, g.ctx.nslots) := by
  have hbt := h.btSizes_or
  have hctx := h.ctxSizes_or
  rw [hB, placedSizes_fixed, or_self] at hbt hctx
  exact ⟨hbt, hctx⟩

theorem placedSizes_pos {α : Type} {t : Table α} (h : 0 < t.cap) (dynamic : Bool) (gr : Growth) :
    0 < (t.placedSizes dynamic gr).1 := by
  unfold Table.placedSizes Table.grownSizes
  split_ifs
  · exact h
  · exact Nat.mul_pos h Nat.two_pos
  · exact Nat.mul_pos h Nat.two_pos
  · exact h

theorem Updated.caps (h : Updated B al T (ctx, b) g g') (hbt : 0 < g.bt.cap)
    (hctx : 0 < g.ctx.cap) : 0 < g'.bt.cap ∧ 0 < g'.ctx.cap := by
  have hcap : ∀ {c n : Nat} {p q : Nat × Nat}, (c, n) = p ∨ (c, n) = q → 0 < p.1 → 0 < q.1 →
      0 < c := by
    rintro c n p q (rfl | rfl) hp hq
    · exact hp
    · exact hq
  exact ⟨hcap h.btSizes_or hbt (placedSizes_pos hbt _ _),
    hcap h.ctxSizes_or hctx (placedSizes_pos hctx _ _)⟩

theorem Trained.update {us : List (List UInt8)} (h : Trained B us g) (hpos : 0 < ctx.length)
    (hlen : ctx.length ≤ btMaxDepth) (hrun : btUpdate B al ctx b g = .ok g')
    (hint : g'.bt.used ≤ 2 ^ 31) :
    Trained B (us ++ [ctx]) g' ∧ g'.window = g.window ∧ g'.frozen = g.frozen := by
  obtain ⟨T, hT, rfl⟩ := h.represents
  have hupd := btUpdate_returned hT hpos hlen h.btCap h.ctxCap hrun hint
  obtain ⟨hbt, hctx⟩ := hupd.caps h.btCap h.ctxCap
  exact ⟨⟨⟨_, hupd.represents, (Tally.update_pairs _ _ _ _).2⟩, hbt, hctx⟩, hupd.window,
    hupd.frozen⟩

theorem last_mem {w : Window} {n : Nat} (hn : n ∈ List.range' 1 w.bytes.length) :
    0 < (w.last n).length ∧ (w.last n).length ≤ btMaxDepth := by
  obtain ⟨h1, hlt⟩ := List.mem_range'_1.1 hn
  rw [w.last_length (by omega)]
  exact ⟨h1, (by omega : n ≤ w.bytes.length).trans w.length_le⟩

theorem ends_window (w : Window) (b : UInt8) :
    (Ngram.ends w.bytes b).map Prod.fst = (List.range' 1 w.bytes.length).map w.last := by
  rw [Ngram.ends, List.map_map]
  rfl

theorem btUpdates_trained {us : List (List UInt8)} {al : Nat → UpdateAlloc}
    (h : g.bt.used ≤ 2 ^ 31 → Trained B us g) (hrun : btUpdates B al b g = .ok g') :
    g.bt.used ≤ g'.bt.used ∧ (g'.bt.used ≤ 2 ^ 31 →
      Trained B (us ++ (Ngram.ends g.window.bytes b).map Prod.fst) g' ∧
      g'.window = g.window ∧ g'.frozen = g.frozen) := by
  rw [ends_window]
  apply foldlM_inv (P := fun pre g1 => g.bt.used ≤ g1.bt.used ∧ (g1.bt.used ≤ 2 ^ 31 →
    Trained B (us ++ pre.map g.window.last) g1 ∧ g1.window = g.window ∧ g1.frozen = g.frozen)) hrun
  · refine ⟨le_rfl, fun hle => ⟨?_, rfl, rfl⟩⟩
    rw [List.map_nil, List.append_nil]
    exact h hle
  · rintro pre n hn g1 g2 ⟨hmono, h1⟩ hstep
    have hused := btUpdate_used hstep
    refine ⟨hmono.trans hused, fun hle => ?_⟩
    obtain ⟨htrained, hwindow, hfrozen⟩ := h1 (hused.trans hle)
    rw [hwindow] at hstep
    obtain ⟨hpos, hlen⟩ := last_mem hn
    obtain ⟨htrained', hwindow', hfrozen'⟩ := htrained.update hpos hlen hstep hle
    rw [List.map_append, ← List.append_assoc]
    exact ⟨htrained', hwindow'.trans hwindow, hfrozen'.trans hfrozen⟩

theorem push_tail {w : Window} {s : List UInt8} (h : w.bytes = Ngram.tail btMaxDepth s)
    (b : UInt8) : (w.push b).bytes = Ngram.tail btMaxDepth (s ++ [b]) := by
  have hlen : w.bytes.length = min s.length btMaxDepth := by
    rw [h, Ngram.tail_length]
  simp only [btMaxDepth] at hlen
  unfold Window.push
  split_ifs with hlt
  · rw [Ngram.tail_concat_of_lt (by simp only [btMaxDepth] at hlt ⊢; omega), ← h]
  · rw [Ngram.tail_concat_of_le (by decide) (by simp only [btMaxDepth] at hlt ⊢; omega), ← h]

/-- What is known of the globals after the training sequence `s`. -/
structure After (B : Build) (s : List UInt8) (g : Globals) : Prop where
  trained : Trained B ((Ngram.log btMaxDepth s).map Prod.fst) g
  window : g.window.bytes = Ngram.tail btMaxDepth s
  frozen : g.frozen = false

theorem btUpdates_used {al : Nat → UpdateAlloc} (h : btUpdates B al b g = .ok g') :
    g.bt.used ≤ g'.bt.used :=
  foldlM_inv (P := fun _ g1 => g.bt.used ≤ g1.bt.used) h le_rfl
    fun _ _ _ _ _ hle hstep => hle.trans (btUpdate_used hstep)

theorem btV3Train_used {al : Nat → UpdateAlloc} (h : btV3Train B al b g = .ok g') :
    g.bt.used ≤ g'.bt.used := by
  unfold btV3Train at h
  split_ifs at h
  · cases h
    exact le_rfl
  · obtain ⟨g1, h1, h⟩ := bind_eq_ok.1 h
    cases h
    have hused := btUpdates_used h1
    exact hused

theorem btV3Train_after {s : List UInt8} {al : Nat → UpdateAlloc} (h : After B s g)
    (hrun : btV3Train B al b g = .ok g') (hint : g'.bt.used ≤ 2 ^ 31) : After B (s ++ [b]) g' := by
  unfold btV3Train at hrun
  rw [h.frozen] at hrun
  obtain ⟨g1, h1, hrun⟩ := bind_eq_ok.1 hrun
  obtain rfl := Except.ok.inj hrun
  obtain ⟨-, htrained⟩ := btUpdates_trained (fun _ => h.trained) h1
  obtain ⟨htrained, hwindow, hfrozen⟩ := htrained hint
  rw [h.window, ← List.map_append, ← Ngram.log_concat] at htrained
  refine ⟨⟨?_, htrained.btCap, htrained.ctxCap⟩, ?_, hfrozen.trans h.frozen⟩
  · obtain ⟨T, hT, hseen⟩ := htrained.represents
    exact ⟨T, ⟨hT.sound, hT.short, hT.bt, hT.ctx, hT.bloom⟩, hseen⟩
  · change (g1.window.push b).bytes = _
    rw [hwindow]
    exact push_tail h.window b

theorem init_after (B : Build) (pool : Nat → BtEntry) (ctxPool : Nat → CtxEntry) :
    After B [] (btV3Init B pool ctxPool) where
  trained := ⟨⟨Tally.empty, init_represents B pool ctxPool, rfl⟩, B.poolCap0_pos, B.ctxCap0_pos⟩
  window := rfl
  frozen := rfl

theorem init_balanced (hB : B.sizing ≠ .fixed 0) (pool : Nat → BtEntry) (ctxPool : Nat → CtxEntry) :
    Balanced (btV3Init B pool ctxPool).bt ∧ Balanced (btV3Init B pool ctxPool).ctx := by
  rw [btV3Init_eq B hB]
  exact ⟨⟨B.poolCap0_pos, rfl⟩, ⟨B.ctxCap0_pos, rfl⟩⟩

/-- An entry of memory that was cleared. -/
def blankBt : BtEntry := ⟨fun _ => 0, 0, 0, 0, 0⟩

def blankCtx : CtxEntry := ⟨fun _ => 0, 0, 0, 0, 0⟩

/-- No realloc fails. -/
def UpdateAlloc.succeeds : UpdateAlloc := ⟨⟨true, true⟩, ⟨true, true⟩⟩

/-- The first `n` contexts of a window, with the byte after them. -/
def endsUpTo (w : Window) (b : UInt8) (n : Nat) : List (List UInt8 × UInt8) :=
  (List.range' 1 n).map fun m => (w.last m, b)

theorem endsUpTo_begins {w : Window} {n : Nat} (hn : n ≤ w.bytes.length) (b : UInt8) :
    endsUpTo w b n <+: Ngram.ends w.bytes b := by
  obtain ⟨k, hk⟩ := Nat.exists_eq_add_of_le hn
  refine List.IsPrefix.map _ ⟨List.range' (1 + n) k, ?_⟩
  rw [hk, List.range'_append_1]

/-- The first `n` updates of a byte. -/
def updatesUpTo (B : Build) (al : Nat → UpdateAlloc) (b : UInt8) (n : Nat) (g : Globals) :
    Outcome Globals :=
  (List.range' 1 n).foldlM (fun g m => btUpdate B (al m) (g.window.last m) b g) g

section Rules

variable {P : List (List UInt8 × UInt8) → Globals → Prop}

theorem updatesUpTo_ok {us : List (List UInt8 × UInt8)} (al : Nat → UpdateAlloc) {n : Nat}
    (hn : n ≤ g.window.bytes.length) (h : P us g)
    (hstep : ∀ ns m ns', List.range' 1 n = ns ++ m :: ns' → 0 < (g.window.last m).length →
      (g.window.last m).length ≤ btMaxDepth → ∀ g1,
      P (us ++ ns.map fun m => (g.window.last m, b)) g1 →
      ∃ g2, btUpdate B (al m) (g.window.last m) b g1 = .ok g2 ∧
        P ((us ++ ns.map fun m => (g.window.last m, b)) ++ [(g.window.last m, b)]) g2 ∧
        g2.window = g1.window ∧ g2.frozen = g1.frozen) :
    ∃ g', updatesUpTo B al b n g = .ok g' ∧ P (us ++ endsUpTo g.window b n) g' ∧
      g'.window = g.window ∧ g'.frozen = g.frozen := by
  apply foldlM_ok (P := fun ns g1 => P (us ++ ns.map fun m => (g.window.last m, b)) g1 ∧
    g1.window = g.window ∧ g1.frozen = g.frozen)
  · rw [List.map_nil, List.append_nil]
    exact ⟨h, rfl, rfl⟩
  · rintro ns m ns' hns g1 ⟨h1, hw, hf⟩
    have hm : m ∈ List.range' 1 g.window.bytes.length := by
      have hlt := List.mem_range'_1.1 (hns ▸ List.mem_append_right ns List.mem_cons_self)
      exact List.mem_range'_1.2 ⟨hlt.1, by omega⟩
    obtain ⟨hpos, hlen⟩ := last_mem hm
    obtain ⟨g2, hrun, h2, hw2, hf2⟩ := hstep ns m ns' hns hpos hlen g1 h1
    refine ⟨g2, by rw [hw]; exact hrun, ?_, hw2.trans hw, hf2.trans hf⟩
    rw [List.map_append, ← List.append_assoc]
    exact h2

theorem trainFrom_ok (al : Nat → Nat → UpdateAlloc) {s : List UInt8} {g0 : Globals}
    (h0 : P [] g0) (hempty : g0.window = .empty) (hthawed : g0.frozen = false)
    (hwindow : ∀ us g w, P us g → P us { g with window := w })
    (hstep : ∀ pre k post, Ngram.log btMaxDepth s = pre ++ k :: post → 0 < k.1.length →
      k.1.length ≤ btMaxDepth → ∀ i n g, P pre g →
      ∃ g', btUpdate B (al i n) k.1 k.2 g = .ok g' ∧ P (pre ++ [k]) g' ∧ g'.window = g.window ∧
        g'.frozen = g.frozen) :
    ∃ g, btV3TrainAll B al s g0 = .ok g ∧ P (Ngram.log btMaxDepth s) g ∧
      g.window.bytes = Ngram.tail btMaxDepth s ∧ g.frozen = false := by
  have hloop := foldlM_ok (l := s.zipIdx) (b := g0) (f := fun g x => btV3Train B (al x.2) x.1 g)
    (P := fun pre g => P (Ngram.log btMaxDepth (pre.map Prod.fst)) g ∧
      g.window.bytes = Ngram.tail btMaxDepth (pre.map Prod.fst) ∧ g.frozen = false)
    ⟨h0, congrArg Window.bytes hempty, hthawed⟩ ?_
  · rwa [List.zipIdx_map_fst] at hloop
  · rintro pre ⟨b, i⟩ post hl g1 ⟨h1, hw, hfrozen⟩
    have hsplit : s = pre.map Prod.fst ++ [b] ++ post.map Prod.fst := by
      have hmap := congrArg (List.map Prod.fst) hl
      rw [List.zipIdx_map_fst] at hmap
      rw [hmap, List.map_append, List.map_cons, List.append_assoc, List.singleton_append]
    obtain ⟨rest, hrest⟩ := Ngram.log_prefix btMaxDepth (pre.map Prod.fst ++ [b])
      (post.map Prod.fst)
    rw [← hsplit, Ngram.log_concat, ← hw] at hrest
    have hends : Ngram.ends g1.window.bytes b =
        (List.range' 1 g1.window.bytes.length).map fun n => (g1.window.last n, b) := rfl
    have hturns := updatesUpTo_ok (P := P) (B := B) (b := b) (al i)
      (n := g1.window.bytes.length) le_rfl h1 ?_
    · obtain ⟨g2, hrun, h2, hw2, hfrozen2⟩ := hturns
      refine ⟨{ g2 with window := g2.window.push b }, ?_, ?_, ?_, hfrozen2.trans hfrozen⟩
      · rw [btV3Train, hfrozen]
        change (updatesUpTo B (al i) b g1.window.bytes.length g1 >>= _) = _
        rw [hrun]
        rfl
      · rw [List.map_append, List.map_singleton, Ngram.log_concat, ← hw]
        exact hwindow _ g2 _ h2
      · rw [List.map_append, List.map_singleton]
        change (g2.window.push b).bytes = _
        rw [hw2]
        exact push_tail hw b
    · intro ns n ns' hns hpos hlen g hg
      have hpre : Ngram.log btMaxDepth s = (Ngram.log btMaxDepth (pre.map Prod.fst) ++
          ns.map fun n => (g1.window.last n, b)) ++ (g1.window.last n, b) ::
            ((ns'.map fun n => (g1.window.last n, b)) ++ rest) := by
        rw [← hrest, hends, hns, List.map_append, List.map_cons]
        simp only [List.append_assoc, List.cons_append]
      exact hstep _ _ _ hpre hpos hlen i n g hg

theorem trainAll_ok {al : Nat → Nat → UpdateAlloc} {s : List UInt8} {pool : Nat → BtEntry}
    {ctxPool : Nat → CtxEntry} (h0 : P [] (btV3Init B pool ctxPool))
    (hwindow : ∀ us g w, P us g → P us { g with window := w })
    (hstep : ∀ pre k post, Ngram.log btMaxDepth s = pre ++ k :: post → 0 < k.1.length →
      k.1.length ≤ btMaxDepth → ∀ i n g, P pre g →
      ∃ g', btUpdate B (al i n) k.1 k.2 g = .ok g' ∧ P (pre ++ [k]) g' ∧ g'.window = g.window ∧
        g'.frozen = g.frozen) :
    ∃ g, btV3TrainAll B al s (btV3Init B pool ctxPool) = .ok g ∧ P (Ngram.log btMaxDepth s) g := by
  obtain ⟨g, hrun, hg, -⟩ := trainFrom_ok al h0 rfl rfl hwindow hstep
  exact ⟨g, hrun, hg⟩

end Rules

theorem trainAll_after {al : Nat → Nat → UpdateAlloc} {s : List UInt8} {pool : Nat → BtEntry}
    {ctxPool : Nat → CtxEntry} (hrun : btV3TrainAll B al s (btV3Init B pool ctxPool) = .ok g)
    (hint : g.bt.used ≤ 2 ^ 31) : After B s g := by
  have hafter := foldlM_inv (P := fun pre g => g.bt.used ≤ 2 ^ 31 → After B (pre.map Prod.fst) g)
    hrun (fun _ => init_after B pool ctxPool) ?_ hint
  · rwa [List.zipIdx_map_fst] at hafter
  · rintro pre ⟨b, i⟩ - g1 g2 h1 hstep hle
    rw [List.map_append]
    exact btV3Train_after (h1 ((btV3Train_used hstep).trans hle)) hstep hle

end Bcb.Bt
