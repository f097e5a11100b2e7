import Bcb.Bt.Linked
import Bcb.Bt.Represents

/-! What the memory of the pools held before: training never reads it, and leaves it in the
entries beyond their contexts. -/

namespace Bcb.Bt

open Lib

section Entries

variable {c c' : Fin btMaxDepth → UInt8} {len : UInt8}

/-- The bytes of an entry's context. -/
def ctxBytes (c : Fin btMaxDepth → UInt8) (len : UInt8) : List UInt8 :=
  (List.ofFn c).take len.toNat

theorem sameCtx_congr (h : ctxBytes c len = ctxBytes c' len) (ctx : List UInt8) :
    sameCtx c len ctx = sameCtx c' len ctx := by
  unfold sameCtx
  by_cases hlen : len.toNat = ctx.length
  · rw [ctxBytes, ctxBytes, hlen] at h
    rw [h]
  · simp only [hlen, decide_false, Bool.false_and]

/-- What training has written of an entry. -/
def BtEntry.written (e : BtEntry) : List UInt8 × UInt8 × UInt8 × UInt32 × Int :=
  (ctxBytes e.ctx e.ctxLen, e.ctxLen, e.nextByte, e.freq, e.ctxNext)

def CtxEntry.written (e : CtxEntry) : List UInt8 × UInt8 × UInt32 × UInt32 × Int :=
  (ctxBytes e.ctx e.ctxLen, e.ctxLen, e.totalFreq, e.uniqueNext, e.firstEntry)

end Entries

section Table

variable {α β : Type} {w : α → β} {hash : α → UInt32} {same : α → Bool} {key : UInt32}
  {t t' : Table α}

/-- Two tables that differ in nothing that has been written. -/
structure Akin (w : α → β) (t t' : Table α) : Prop where
  used : t.used = t'.used
  cap : t.cap = t'.cap
  slot : t.slot = t'.slot
  nslots : t.nslots = t'.nslots
  mask : t.mask = t'.mask
  pool : ∀ i < t.used, w (t.pool i) = w (t'.pool i)

/-- A function that only looks at what has been written. -/
def Blind {γ : Type} (w : α → β) (f : α → γ) : Prop := ∀ e e', w e = w e' → f e = f e'

theorem Akin.read {γ : Type} {f : α → γ} (h : Akin w t t') (hf : Blind w f) {i : Nat}
    (hi : i < t.used) : f <$> t.read i = f <$> t'.read i := by
  unfold Table.read
  rw [← h.cap]
  split_ifs
  · exact congrArg Except.ok (hf _ _ (h.pool i hi))
  · rfl

theorem Akin.readSlot (h : Akin w t t') : t.readSlot = t'.readSlot := by
  funext s
  unfold Table.readSlot
  rw [h.nslots, h.slot]

theorem Akin.freeSlot (h : Akin w t t') : t.freeSlot = t'.freeSlot := by
  funext s
  unfold Table.freeSlot
  rw [h.readSlot, h.mask, h.nslots]

theorem Akin.search (h : Akin w t t') (hs : Slots t) (hsame : Blind w same) :
    t.search same key = t'.search same key := by
  unfold Table.search
  rw [← h.mask, ← h.nslots]
  refine Probe.run_congr fun k _ => ?_
  unfold Table.searchTest
  rw [← h.readSlot]
  unfold Table.readSlot
  split_ifs
  · simp only [pure_bind]
    cases hl : link (t.slot ((nextSlot t.mask)^[k] (key.toNat &&& t.mask))) with
    | none => rfl
    | some i =>
      have hread := h.read hsame ((hs _).below i hl)
      have hmap : ∀ x : Outcome α, (do
          let e ← x
          return if same e then some (Hit.found i) else none) =
          (fun b : Bool => if b then some (Hit.found i) else none) <$> (same <$> x) := by
        intro x
        cases x <;> rfl
      exact (hmap _).trans ((congrArg _ hread).trans (hmap _).symm)
  · rfl

theorem Akin.rehash (h : Akin w t t') (hhash : Blind w hash) {i : Nat} (hi : i < t.used) :
    Alike (Akin w) (t.rehash hash i) (t'.rehash hash i) := by
  have hread : Alike (fun e e' => hash e = hash e') (t.read i) (t'.read i) :=
    .of_map (h.read hhash hi)
  apply hread.bind
  intro e e' he
  rw [he, ← h.freeSlot, ← h.mask]
  apply (Alike.of_eq rfl).bind
  rintro s _ rfl
  refine .ok ⟨h.used, h.cap, ?_, h.nslots, rfl, h.pool⟩
  rw [h.slot]

theorem Akin.grow (h : Akin w t t') (hhash : Blind w hash) (dynamic : Bool) (gr : Growth) :
    Alike (fun x y => x.1 = y.1 ∧ Akin w x.2 y.2) (t.grow dynamic gr hash)
      (t'.grow dynamic gr hash) := by
  unfold Table.grow
  split_ifs
  · exact .ok ⟨rfl, h⟩
  · exact .ok ⟨rfl, h⟩
  · exact .ok ⟨rfl, h.used, congrArg (· * 2) h.cap, h.slot, h.nslots, h.mask, h.pool⟩
  · rw [← h.used]
    have hdoubled : Akin w t.doubled t'.doubled :=
      ⟨h.used, congrArg (· * 2) h.cap, rfl, congrArg (· * 2) h.nslots,
        congrArg (· * 2 - 1) h.nslots, h.pool⟩
    have hfold : Alike (fun x y => Akin w x y ∧ x.used = t.used)
        ((List.range t.used).foldlM (Table.rehash hash) t.doubled)
        ((List.range t.used).foldlM (Table.rehash hash) t'.doubled) := by
      refine Alike.foldlM ?_ ⟨hdoubled, rfl⟩
      rintro i hi x y ⟨hxy, hused⟩
      have hlt : i < x.used := hused ▸ List.mem_range.1 hi
      refine (hxy.rehash hhash hlt).with_eq.mono ?_
      rintro x' y' ⟨hxy', hx, -⟩
      exact ⟨hxy', (rehash_kept hlt hx).used.trans hused⟩
    apply hfold.bind
    rintro x y ⟨hxy, -⟩
    exact .ok ⟨rfl, hxy⟩

theorem Akin.place (h : Akin w t t') (hs : Slots t) (hhash : Blind w hash) (hsame : Blind w same)
    (dynamic : Bool) (gr : Growth) (n : Nat) :
    Alike (fun x y => x.1 = y.1 ∧ Akin w x.2 y.2) (t.place dynamic gr hash same key n)
      (t'.place dynamic gr hash same key n) := by
  induction n generalizing t t' with
  | zero => exact .error _
  | succ n ih =>
    rw [Table.place, Table.place, ← h.search hs hsame]
    apply (Alike.of_eq rfl).bind
    rintro hit _ rfl
    cases hit with
    | found i => exact .ok ⟨rfl, h⟩
    | free s =>
      dsimp only
      rw [← h.used, ← h.cap]
      split_ifs
      · exact .ok ⟨rfl, h⟩
      · apply (h.grow hhash dynamic gr).with_eq.bind
        rintro ⟨grown, x⟩ ⟨grown', y⟩ ⟨⟨hgrown, hxy⟩, hx, -⟩
        obtain rfl : grown = grown' := hgrown
        cases grown with
        | false => exact .ok ⟨rfl, hxy⟩
        | true => exact ih hxy ((grow_kept hx).slots hs)

theorem Akin.put (h : Akin w t t') {e e' : α} (he : w e = w e') (s : Nat) :
    Akin w (t.put s t.used e) (t'.put s t'.used e') := by
  refine ⟨congrArg (· + 1) h.used, h.cap, ?_, h.nslots, h.mask, ?_⟩
  · simp only [Table.put, h.slot, h.used]
  · intro i hi
    rw [Table.put_pool, Table.put_pool, ← h.used]
    split_ifs with hi'
    · exact he
    · exact h.pool i (Nat.lt_of_le_of_ne (Nat.le_of_lt_succ hi) hi')

theorem Akin.modify (h : Akin w t t') {f f' : α → α}
    (hf : ∀ e e', w e = w e' → w (f e) = w (f' e')) {i : Nat} (hi : i < t.used) :
    Akin w (t.modify i f) (t'.modify i f') := by
  refine ⟨h.used, h.cap, h.slot, h.nslots, h.mask, ?_⟩
  intro j hj
  rw [Table.modify_pool, Table.modify_pool]
  split_ifs
  · exact hf _ _ (h.pool i hi)
  · exact h.pool j hj

end Table

section Entries

variable {c c' : Fin btMaxDepth → UInt8} {ctx : List UInt8} {b : UInt8}

theorem BtEntry.written_inj {e e' : BtEntry} (h : e.written = e'.written) :
    e.ctxLen = e'.ctxLen ∧ ctxBytes e.ctx e'.ctxLen = ctxBytes e'.ctx e'.ctxLen ∧
      e.nextByte = e'.nextByte ∧ e.freq = e'.freq ∧ e.ctxNext = e'.ctxNext := by
  obtain ⟨hctx, hlen, h⟩ := by simpa only [written, Prod.mk.injEq] using h
  exact ⟨hlen, hlen ▸ hctx, h⟩

theorem CtxEntry.written_inj {e e' : CtxEntry} (h : e.written = e'.written) :
    e.ctxLen = e'.ctxLen ∧ ctxBytes e.ctx e'.ctxLen = ctxBytes e'.ctx e'.ctxLen ∧
      e.totalFreq = e'.totalFreq ∧ e.uniqueNext = e'.uniqueNext ∧
      e.firstEntry = e'.firstEntry := by
  obtain ⟨hctx, hlen, h⟩ := by simpa only [written, Prod.mk.injEq] using h
  exact ⟨hlen, hlen ▸ hctx, h⟩

theorem blind_btHash : Blind BtEntry.written btHash := by
  intro e e' h
  obtain ⟨hlen, hctx, hnext, -, -⟩ := BtEntry.written_inj h
  rw [ctxBytes, ctxBytes] at hctx
  rw [btHash, btHash, fnvEntry, fnvEntry, hlen, hctx, hnext]

theorem blind_btSame (ctx : List UInt8) (b : UInt8) : Blind BtEntry.written (btSame ctx b) := by
  intro e e' h
  obtain ⟨hlen, hctx, hnext, -, -⟩ := BtEntry.written_inj h
  rw [btSame, btSame, hlen, hnext, sameCtx_congr hctx]

theorem blind_ctxHash : Blind CtxEntry.written ctxHash := by
  intro e e' h
  obtain ⟨hlen, hctx, -⟩ := CtxEntry.written_inj h
  rw [ctxBytes, ctxBytes] at hctx
  rw [ctxHash, ctxHash, fnvEntry, fnvEntry, hlen, hctx]

theorem blind_ctxSame (ctx : List UInt8) : Blind CtxEntry.written (ctxSame ctx) := by
  intro e e' h
  obtain ⟨hlen, hctx, -⟩ := CtxEntry.written_inj h
  rw [ctxSame, ctxSame, hlen, sameCtx_congr hctx]

theorem ctxBytes_copyCtx (h : ctx.length ≤ btMaxDepth) :
    ctxBytes (copyCtx c ctx) (UInt8.ofNat ctx.length) = ctx := by
  have hsame : sameCtx (copyCtx c ctx) (UInt8.ofNat ctx.length) ctx = true := sameCtx_copyCtx h
  obtain ⟨hlen, htake⟩ := sameCtx_iff.1 hsame
  rw [ctxBytes, hlen, htake]

theorem newBtEntry_written (h : ctx.length ≤ btMaxDepth) (old old' : BtEntry) :
    (newBtEntry ctx b old).written = (newBtEntry ctx b old').written := by
  simp only [BtEntry.written, newBtEntry, ctxBytes_copyCtx h]

theorem newCtxEntry_written (h : ctx.length ≤ btMaxDepth) (old old' : CtxEntry) :
    (newCtxEntry ctx old).written = (newCtxEntry ctx old').written := by
  simp only [CtxEntry.written, newCtxEntry, ctxBytes_copyCtx h]

end Entries

section Updates

variable {B : Build} {bt bt' : Table BtEntry} {cs cs' : Table CtxEntry} {ctx : List UInt8}
  {b : UInt8} {g g' : Globals}

theorem Akin.btCount (h : Akin BtEntry.written bt bt') (hs : Slots bt)
    (hctx : ctx.length ≤ btMaxDepth) (gr : Growth) (ch : UInt32) :
    Alike (fun x y => x.1 = y.1 ∧ Akin BtEntry.written x.2 y.2) (btCount B gr ctx ch b bt)
      (btCount B gr ctx ch b bt') := by
  apply (h.place hs blind_btHash (blind_btSame ctx b) B.dynamic gr 2).with_eq.bind
  rintro ⟨hit, x⟩ ⟨hit', y⟩ ⟨⟨hhit, hxy⟩, hx, -⟩
  obtain rfl : hit = hit' := hhit
  cases hit with
  | none => exact .ok ⟨rfl, hxy⟩
  | some hit =>
    cases hit with
    | found i =>
      refine .ok ⟨rfl, ?_⟩
      dsimp only
      refine hxy.modify (fun e e' he => ?_) ((place_kept hx).2 i rfl hs)
      obtain ⟨h1, h2, h3, h4, h5⟩ := BtEntry.written_inj he
      simp only [BtEntry.written, h1, h2, h3, h4, h5]
    | free s =>
      refine .ok ⟨?_, hxy.put (newBtEntry_written hctx _ _) s⟩
      exact congrArg (fun n => some (some n)) hxy.used

theorem Akin.ctxGetH (h : Akin CtxEntry.written cs cs') (hs : Slots cs)
    (hle : cs.used ≤ 2 ^ 31) (hctx : ctx.length ≤ btMaxDepth) (gr : Growth) (ch : UInt32) :
    Alike (fun x y => x.1 = y.1 ∧ Akin CtxEntry.written x.2 y.2) (ctxGetH B gr ctx ch cs)
      (ctxGetH B gr ctx ch cs') := by
  apply (h.place hs blind_ctxHash (blind_ctxSame ctx) B.dynamic gr 2).with_eq.bind
  rintro ⟨hit, x⟩ ⟨hit', y⟩ ⟨⟨hhit, hxy⟩, hx, -⟩
  obtain rfl : hit = hit' := hhit
  cases hit with
  | none => exact .ok ⟨rfl, hxy⟩
  | some hit =>
    cases hit with
    | found i => exact .ok ⟨rfl, hxy⟩
    | free s =>
      have hused := (place_kept hx).1.used
      have hmod : x.used % 2 ^ 32 = x.used := Nat.mod_eq_of_lt (by omega)
      dsimp only
      rw [← hxy.used, hmod]
      split_ifs
      · refine .ok ⟨rfl, ?_⟩
        have hput := hxy.put (newCtxEntry_written hctx (x.pool x.used) (y.pool x.used)) s
        rwa [← hxy.used] at hput
      · exact .error _

theorem chainNew_akin (hbt : Akin BtEntry.written bt bt') (hcs : Akin CtxEntry.written cs cs')
    {new : Option Nat} {cc : Nat} (hcc : cc < cs.used) (hnew : ∀ j, new = some j → j < bt.used) :
    Akin BtEntry.written (chainNew new cc bt cs).1 (chainNew new cc bt' cs').1 ∧
      Akin CtxEntry.written (chainNew new cc bt cs).2 (chainNew new cc bt' cs').2 := by
  cases new with
  | none => exact ⟨hbt, hcs⟩
  | some j =>
    obtain ⟨-, -, -, -, hfirst⟩ := CtxEntry.written_inj (hcs.pool cc hcc)
    constructor
    · dsimp only [chainNew]
      refine hbt.modify (fun e e' he => ?_) (hnew j rfl)
      obtain ⟨h1, h2, h3, h4, -⟩ := BtEntry.written_inj he
      simp only [BtEntry.written, h1, h2, h3, h4, hfirst]
    · dsimp only [chainNew]
      refine hcs.modify (fun e e' he => ?_) hcc
      obtain ⟨h1, h2, h3, h4, -⟩ := CtxEntry.written_inj he
      simp only [CtxEntry.written, h1, h2, h3, h4]

/-- Two processes that differ in nothing that has been written. -/
structure AkinGlobals (g g' : Globals) : Prop where
  bt : Akin BtEntry.written g.bt g'.bt
  ctx : Akin CtxEntry.written g.ctx g'.ctx
  bloom : g.bloom = g'.bloom
  window : g.window = g'.window
  frozen : g.frozen = g'.frozen

theorem AkinGlobals.btUpdate (h : AkinGlobals g g') (hl : Linked g.bt g.ctx) (al : UpdateAlloc) :
    Alike AkinGlobals (btUpdate B al ctx b g) (btUpdate B al ctx b g') := by
  unfold Bt.btUpdate
  split_ifs with hlen
  · exact .ok h
  · have hctx : ctx.length ≤ btMaxDepth := by omega
    have hbloom : bloomSet B ctx g.bloom = bloomSet B ctx g'.bloom := congrArg _ h.bloom
    apply (h.bt.btCount hl.btSlots hctx al.bt (fnv ctx)).with_eq.bind
    rintro ⟨o, bt⟩ ⟨o', bt'⟩ ⟨⟨ho, hbt⟩, hcount, -⟩
    obtain rfl : o = o' := ho
    obtain ⟨hl', -, hnew⟩ := hl.btCount hcount
    cases o with
    | none => exact .ok ⟨hbt, h.ctx, hbloom, h.window, h.frozen⟩
    | some new =>
      apply (h.ctx.ctxGetH hl'.ctxSlots hl'.ctxUsed hctx al.ctx (fnv ctx)).with_eq.bind
      rintro ⟨o, cs⟩ ⟨o', cs'⟩ ⟨⟨ho, hcs⟩, hget, -⟩
      obtain rfl : o = o' := ho
      obtain ⟨-, hcc⟩ := hl'.ctxGetH hget
      cases o with
      | none => exact .ok ⟨hbt, hcs, hbloom, h.window, h.frozen⟩
      | some cc =>
        have hcounted : Akin CtxEntry.written
            (cs.modify cc fun e => { e with totalFreq := e.totalFreq + 1 })
            (cs'.modify cc fun e => { e with totalFreq := e.totalFreq + 1 }) := by
          refine hcs.modify (fun e e' he => ?_) (hcc cc rfl)
          obtain ⟨h1, h2, h3, h4, h5⟩ := CtxEntry.written_inj he
          simp only [CtxEntry.written, h1, h2, h3, h4, h5]
        obtain ⟨hbt', hcs'⟩ := chainNew_akin hbt hcounted (hcc cc rfl)
          fun j hj => hnew j (congrArg some hj)
        exact .ok ⟨hbt', hcs', hbloom, h.window, h.frozen⟩

theorem AkinGlobals.btV3Train (h : AkinGlobals g g') (hl : Linked g.bt g.ctx)
    (al : Nat → UpdateAlloc) (b : UInt8) :
    Alike AkinGlobals (btV3Train B al b g) (btV3Train B al b g') := by
  unfold Bt.btV3Train
  rw [← h.frozen]
  split_ifs
  · exact .ok ⟨h.bt, h.ctx, h.bloom, congrArg (·.push b) h.window, h.frozen⟩
  · have hups : Alike AkinGlobals (btUpdates B al b g) (btUpdates B al b g') := by
      unfold btUpdates
      rw [← h.window]
      refine (Alike.foldlM (R := fun x y => AkinGlobals x y ∧ Linked x.bt x.ctx) ?_ ⟨h, hl⟩).mono
        fun _ _ hxy => hxy.1
      rintro n - x y ⟨hxy, hx⟩
      rw [← hxy.window]
      refine (hxy.btUpdate hx (al n)).with_eq.mono ?_
      rintro x' y' ⟨hxy', hx', -⟩
      exact ⟨hxy', btUpdate_linked hx hx'⟩
    apply hups.bind
    intro x y hxy
    exact .ok ⟨hxy.bt, hxy.ctx, hxy.bloom, congrArg (·.push b) hxy.window, hxy.frozen⟩

/-- Training never reads what the pools held before. -/
theorem trainAll_akin (B : Build) (al : Nat → Nat → UpdateAlloc) (s : List UInt8)
    (pool pool' : Nat → BtEntry) (ctxPool ctxPool' : Nat → CtxEntry) :
    Alike AkinGlobals (btV3TrainAll B al s (btV3Init B pool ctxPool))
      (btV3TrainAll B al s (btV3Init B pool' ctxPool')) := by
  have hinit : AkinGlobals (btV3Init B pool ctxPool) (btV3Init B pool' ctxPool') :=
    ⟨⟨rfl, rfl, rfl, rfl, rfl, fun _ hi => absurd hi (Nat.not_lt_zero _)⟩,
      ⟨rfl, rfl, rfl, rfl, rfl, fun _ hi => absurd hi (Nat.not_lt_zero _)⟩, rfl, rfl, rfl⟩
  refine (Alike.foldlM (R := fun x y => AkinGlobals x y ∧ Linked x.bt x.ctx) ?_
    ⟨hinit, init_linked B pool ctxPool⟩).mono fun _ _ hxy => hxy.1
  rintro ⟨b, i⟩ - x y ⟨hxy, hx⟩
  refine (hxy.btV3Train hx (al i) b).with_eq.mono ?_
  rintro x' y' ⟨hxy', hx', -⟩
  exact ⟨hxy', btV3Train_linked hx hx'⟩

end Updates

/-! ## What is left over -/

section Grown

variable {α : Type} {raw : α → (Fin btMaxDepth → UInt8) × UInt8} {t t' t'' : Table α}

/-- Entries keep their contexts; beyond those, and where there is no entry, everything stays. -/
structure Grown (raw : α → (Fin btMaxDepth → UInt8) × UInt8) (t t' : Table α) : Prop where
  used : t.used ≤ t'.used
  old : ∀ i < t.used, raw (t'.pool i) = raw (t.pool i)
  left : ∀ i, t.used ≤ i → ∀ k : Fin btMaxDepth,
    (i < t'.used → (raw (t'.pool i)).2.toNat ≤ k) → (raw (t'.pool i)).1 k = (raw (t.pool i)).1 k

theorem Kept.grown (h : Kept t t') : Grown raw t t' :=
  ⟨h.used.ge, fun i _ => by rw [h.pool], fun i _ k _ => by rw [h.pool]⟩

theorem Grown.trans (h : Grown raw t t') (h' : Grown raw t' t'') : Grown raw t t'' where
  used := h.used.trans h'.used
  old i hi := (h'.old i (hi.trans_le h.used)).trans (h.old i hi)
  left i hi k hk := by
    by_cases hi' : i < t'.used
    · have hold := h'.old i hi'
      rw [hold] at hk ⊢
      exact h.left i hi k fun _ => hk (hi'.trans_le h'.used)
    · rw [h'.left i (not_lt.1 hi') k hk]
      exact h.left i hi k fun hlt => absurd hlt hi'

theorem Grown.put (s : Nat) {e : α}
    (he : ∀ k : Fin btMaxDepth, (raw e).2.toNat ≤ k → (raw e).1 k = (raw (t.pool t.used)).1 k) :
    Grown raw t (t.put s t.used e) where
  used := Nat.le_succ _
  old i hi := by rw [Table.put_pool, if_neg hi.ne]
  left i hi k hk := by
    rw [Table.put_pool] at hk ⊢
    split_ifs at hk ⊢ with hi'
    · rw [hi']
      exact he k (hk (Nat.lt_succ_of_le hi'.le))
    · rfl

theorem Grown.modify {f : α → α} (hf : ∀ e, raw (f e) = raw e) (i : Nat) :
    Grown raw t (t.modify i f) := by
  have hpool : ∀ j, raw ((t.modify i f).pool j) = raw (t.pool j) := by
    intro j
    rw [Table.modify_pool]
    split_ifs with hj
    · rw [hf, hj]
    · rfl
  exact ⟨le_rfl, fun j _ => hpool j, fun j _ k _ => by rw [hpool]⟩

end Grown

/-- The bytes of an entry's context and what follows them. -/
def BtEntry.raw (e : BtEntry) : (Fin btMaxDepth → UInt8) × UInt8 := (e.ctx, e.ctxLen)

def CtxEntry.raw (e : CtxEntry) : (Fin btMaxDepth → UInt8) × UInt8 := (e.ctx, e.ctxLen)

theorem copyCtx_left {old : Fin btMaxDepth → UInt8} {ctx : List UInt8}
    (h : ctx.length ≤ btMaxDepth) {k : Fin btMaxDepth}
    (hk : (UInt8.ofNat ctx.length).toNat ≤ k) : copyCtx old ctx k = old k := by
  have hlen : (UInt8.ofNat ctx.length).toNat = ctx.length :=
    UInt8.toNat_ofNat_of_lt' (h.trans_lt (by decide))
  rw [hlen] at hk
  rw [copyCtx, List.getD_eq_getElem?_getD, List.getElem?_eq_none hk, Option.getD_none]

section Updates

variable {B : Build} {bt bt' : Table BtEntry} {cs cs' : Table CtxEntry} {ctx : List UInt8}
  {b : UInt8} {g g' : Globals}

theorem btCount_grown {gr : Growth} {ch : UInt32} {o : Option (Option Nat)}
    (hctx : ctx.length ≤ btMaxDepth) (hrun : btCount B gr ctx ch b bt = .ok (o, bt')) :
    Grown BtEntry.raw bt bt' := by
  obtain ⟨⟨hit, t⟩, hplace, hrun⟩ := bind_eq_ok.1 hrun
  have hkept : Grown BtEntry.raw bt t := (place_kept hplace).1.grown
  cases hit with
  | none =>
    cases hrun
    exact hkept
  | some hit =>
    cases hit with
    | found i =>
      cases hrun
      exact hkept.trans
        (Grown.modify (f := fun e : BtEntry => { e with freq := e.freq + 1 }) (fun _ => rfl) i)
    | free s =>
      cases hrun
      exact hkept.trans (.put s fun k hk => copyCtx_left hctx hk)

theorem ctxGetH_grown {gr : Growth} {ch : UInt32} {o : Option Nat} (hle : cs.used ≤ 2 ^ 31)
    (hctx : ctx.length ≤ btMaxDepth) (hrun : ctxGetH B gr ctx ch cs = .ok (o, cs')) :
    Grown CtxEntry.raw cs cs' := by
  obtain ⟨⟨hit, t⟩, hplace, hrun⟩ := bind_eq_ok.1 hrun
  have hkept : Grown CtxEntry.raw cs t := (place_kept hplace).1.grown
  cases hit with
  | none =>
    cases hrun
    exact hkept
  | some hit =>
    cases hit with
    | found i =>
      cases hrun
      exact hkept
    | free s =>
      have hused := (place_kept hplace).1.used
      have hmod : t.used % 2 ^ 32 = t.used := Nat.mod_eq_of_lt (by omega)
      dsimp only at hrun
      rw [hmod] at hrun
      split_ifs at hrun
      cases hrun
      exact hkept.trans (.put s fun k hk => copyCtx_left hctx hk)

theorem chainNew_grown (new : Option Nat) (cc : Nat) (bt : Table BtEntry) (cs : Table CtxEntry) :
    Grown BtEntry.raw bt (chainNew new cc bt cs).1 ∧
      Grown CtxEntry.raw cs (chainNew new cc bt cs).2 := by
  cases new with
  | none => exact ⟨(Kept.refl bt).grown, (Kept.refl cs).grown⟩
  | some j =>
    dsimp only [chainNew]
    constructor
    · exact Grown.modify (f := fun e : BtEntry => { e with ctxNext := (cs.pool cc).firstEntry })
        (fun _ => rfl) j
    · exact Grown.modify (f := fun e : CtxEntry =>
        { e with uniqueNext := e.uniqueNext + 1, firstEntry := toInt32 j }) (fun _ => rfl) cc

/-- Both tables grow. -/
structure GrownGlobals (g g' : Globals) : Prop where
  bt : Grown BtEntry.raw g.bt g'.bt
  ctx : Grown CtxEntry.raw g.ctx g'.ctx

theorem GrownGlobals.refl (g : Globals) : GrownGlobals g g :=
  ⟨(Kept.refl g.bt).grown, (Kept.refl g.ctx).grown⟩

theorem GrownGlobals.trans {g'' : Globals} (h : GrownGlobals g g') (h' : GrownGlobals g' g'') :
    GrownGlobals g g'' := ⟨h.bt.trans h'.bt, h.ctx.trans h'.ctx⟩

theorem btUpdate_counted {al : UpdateAlloc} (hl : Linked g.bt g.ctx) (hpos : ctx.length ≠ 0)
    (hctx : ctx.length ≤ btMaxDepth) (hrun : btUpdate B al ctx b g = .ok g') :
    ∃ o bt, btCount B al.bt ctx (fnv ctx) b g.bt = .ok (o, bt) ∧ Grown BtEntry.raw bt g'.bt ∧
      Grown CtxEntry.raw g.ctx g'.ctx := by
  unfold btUpdate at hrun
  rw [if_neg (by omega)] at hrun
  obtain ⟨⟨o, bt⟩, hcount, hrun⟩ := bind_eq_ok.1 hrun
  refine ⟨o, bt, hcount, ?_⟩
  cases o with
  | none =>
    cases hrun
    exact ⟨(Kept.refl bt).grown, (Kept.refl g.ctx).grown⟩
  | some new =>
    obtain ⟨⟨o, cs⟩, hget, hrun⟩ := bind_eq_ok.1 hrun
    have hcs := ctxGetH_grown hl.ctxUsed hctx hget
    cases o with
    | none =>
      cases hrun
      exact ⟨(Kept.refl bt).grown, hcs⟩
    | some cc =>
      cases hrun
      have hcounted : Grown CtxEntry.raw cs
          (cs.modify cc fun e => { e with totalFreq := e.totalFreq + 1 }) :=
        Grown.modify (f := fun e : CtxEntry => { e with totalFreq := e.totalFreq + 1 })
          (fun _ => rfl) cc
      obtain ⟨hbt', hcs'⟩ := chainNew_grown new cc bt
        (cs.modify cc fun e => { e with totalFreq := e.totalFreq + 1 })
      exact ⟨hbt', (hcs.trans hcounted).trans hcs'⟩

theorem btUpdate_grown {al : UpdateAlloc} (hl : Linked g.bt g.ctx)
    (hrun : btUpdate B al ctx b g = .ok g') : GrownGlobals g g' := by
  by_cases hlen : ctx.length = 0 ∨ btMaxDepth < ctx.length
  · rw [btUpdate, if_pos hlen] at hrun
    cases hrun
    exact .refl g
  · obtain ⟨o, bt, hcount, hbt, hcs⟩ := btUpdate_counted hl (by omega) (by omega) hrun
    exact ⟨(btCount_grown (by omega) hcount).trans hbt, hcs⟩

theorem btV3Train_grown {al : Nat → UpdateAlloc} (hl : Linked g.bt g.ctx)
    (hrun : btV3Train B al b g = .ok g') : GrownGlobals g g' := by
  unfold btV3Train at hrun
  split_ifs at hrun
  · cases hrun
    exact ⟨(Kept.refl g.bt).grown, (Kept.refl g.ctx).grown⟩
  · obtain ⟨g1, hups, hrun⟩ := bind_eq_ok.1 hrun
    obtain rfl := Except.ok.inj hrun
    have hgrown : GrownGlobals g g1 ∧ Linked g1.bt g1.ctx :=
      foldlM_inv (P := fun _ g1 => GrownGlobals g g1 ∧ Linked g1.bt g1.ctx) hups ⟨.refl g, hl⟩
        fun _ _ _ _ _ h1 hstep =>
          ⟨h1.1.trans (btUpdate_grown h1.2 hstep), btUpdate_linked h1.2 hstep⟩
    exact ⟨hgrown.1.bt, hgrown.1.ctx⟩

theorem trainAll_grown {al : Nat → Nat → UpdateAlloc} {xs : List (UInt8 × Nat)}
    (hl : Linked g.bt g.ctx)
    (hrun : xs.foldlM (fun g x => btV3Train B (al x.2) x.1 g) g = .ok g') : GrownGlobals g g' :=
  (foldlM_inv (P := fun _ g1 => GrownGlobals g g1 ∧ Linked g1.bt g1.ctx) hrun ⟨.refl g, hl⟩
    fun _ _ _ _ _ h1 hstep =>
      ⟨h1.1.trans (btV3Train_grown h1.2 hstep), btV3Train_linked h1.2 hstep⟩).1

end Updates

/-! ## The first entry -/

section First

variable {B : Build} {g : Globals} {pool : Nat → BtEntry} {ctxPool : Nat → CtxEntry}

theorem search_empty {α : Type} {t : Table α} (hslot : ∀ h, t.slot h = -1)
    (hmask : t.mask < t.nslots) (same : α → Bool) (key : UInt32) :
    ∃ h, t.search same key = .ok (.free h) := by
  obtain ⟨n, hn⟩ : ∃ n, t.nslots = n + 1 := ⟨t.nslots - 1, by omega⟩
  have hlt : key.toNat &&& t.mask < t.nslots := Nat.and_le_right.trans_lt hmask
  refine ⟨key.toNat &&& t.mask, ?_⟩
  rw [Table.search, hn]
  apply Probe.run_stop
  rw [Table.searchTest, Table.readSlot, if_pos hlt, hslot]
  rfl

theorem btCount_empty {t : Table BtEntry} (hslot : ∀ h, t.slot h = -1)
    (hmask : t.mask < t.nslots) (hcap : t.used < t.cap) (gr : Growth) (ctx : List UInt8)
    (ch : UInt32) (b : UInt8) : ∃ h, btCount B gr ctx ch b t =
      .ok (some (some t.used), t.put h t.used (newBtEntry ctx b (t.pool t.used))) := by
  obtain ⟨h, hsearch⟩ := search_empty hslot hmask (btSame ctx b) (btKey ch b)
  refine ⟨h, ?_⟩
  rw [btCount, Table.place, hsearch]
  simp only [ok_bind, if_pos hcap]
  rfl

theorem trainAll_first {al : Nat → Nat → UpdateAlloc} {b b' : UInt8} {s : List UInt8}
    (hrun : btV3TrainAll B al (b :: b' :: s) (btV3Init B pool ctxPool) = .ok g) :
    0 < g.bt.used ∧ (g.bt.pool 0).ctxLen = 1 := by
  have hl := init_linked B pool ctxPool
  obtain ⟨g1, hfirst, hrun⟩ := bind_eq_ok.1 hrun
  obtain ⟨g3, hsecond, hrest⟩ := bind_eq_ok.1 hrun
  have hl3 := btV3Train_linked (btV3Train_linked hl hfirst) hsecond
  obtain rfl := Except.ok.inj hfirst
  obtain ⟨g2, hups, hg3⟩ := bind_eq_ok.1 hsecond
  obtain rfl := Except.ok.inj hg3
  obtain ⟨g2', hupd, hg2⟩ := bind_eq_ok.1 hups
  obtain rfl := Except.ok.inj hg2
  -- the window holds `b`, and the tables are still empty
  have hlen : ((Window.empty.push b).last 1).length = 1 := Window.last_length _ le_rfl
  obtain ⟨o, bt, hcount, hbt, -⟩ :=
    btUpdate_counted (g := { btV3Init B pool ctxPool with window := Window.empty.push b }) hl
      (hlen.trans_ne Nat.one_ne_zero) (hlen.trans_le (by decide)) hupd
  obtain ⟨h, hempty⟩ := btCount_empty (B := B) (t := (btV3Init B pool ctxPool).bt) (fun _ => rfl)
    (Nat.sub_lt B.btNslots0_pos Nat.one_pos) B.poolCap0_pos (al 1 1).bt
    ((Window.empty.push b).last 1) (fnv ((Window.empty.push b).last 1)) b'
  obtain ⟨-, rfl⟩ := Prod.mk.inj (Except.ok.inj (hempty.symm.trans hcount))
  have hgrown := hbt.trans (trainAll_grown hl3 hrest).bt
  refine ⟨hgrown.used, ?_⟩
  have hraw := hgrown.old 0 Nat.one_pos
  refine (congrArg Prod.snd hraw).trans ?_
  simp [Table.put_pool, BtEntry.raw, newBtEntry, btV3Init, hlen]

end First

end Bcb.Bt
