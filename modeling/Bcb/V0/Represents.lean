import Bcb.Bt.Training
import Bcb.Lib.Bounded
import Bcb.V0.Train

namespace Bcb.V0

open Lib Bt

/-! ## Entries and keys -/

section Keys

variable {ctx : List UInt8} {b : UInt8}

@[simp] theorem btSame_iff {e : BtEntry} :
    btSame ctx b e = true ↔ sameCtx e.ctx e.ctxLen ctx = true ∧ e.nextByte = b := by
  simp [btSame]

/-- The entries of the `BtTable`, each for a context and a byte. -/
def btKeys : Pool.Keys BtEntry (List UInt8 × UInt8) where
  chain := BtEntry.chain
  home e := btBucket (fnvEntry e.ctx e.ctxLen) e.nextByte
  same k := btSame k.1 k.2
  bucket k := btBucket (fnv k.1) k.2
  unique h h' := by
    obtain ⟨hctx, hb⟩ := btSame_iff.1 h
    obtain ⟨hctx', hb'⟩ := btSame_iff.1 h'
    exact Prod.ext (sameCtx_unique hctx hctx') (hb.symm.trans hb')
  home_eq h := by
    obtain ⟨hctx, hb⟩ := btSame_iff.1 h
    rw [fnvEntry_of_same hctx, hb]

/-- The context entries. -/
def ctxKeys : Pool.Keys CtxEntry (List UInt8) where
  chain := CtxEntry.chain
  home e := ctxBucket (fnvEntry e.ctx e.ctxLen)
  same := ctxSame
  bucket c := ctxBucket (fnv c)
  unique := sameCtx_unique
  home_eq h := by rw [fnvEntry_of_same h]

theorem newBtEntry_same (h : ctx.length ≤ btMaxDepth) (b : UInt8) (chain : Int) (old : BtEntry) :
    btSame ctx b (newBtEntry ctx b chain old) = true := btSame_iff.2 ⟨sameCtx_copyCtx h, rfl⟩

theorem newCtxEntry_same (h : ctx.length ≤ btMaxDepth) (chain : Int) (old : CtxEntry) :
    ctxSame ctx (newCtxEntry ctx chain old) = true := sameCtx_copyCtx h

end Keys

/-! ## The bloom filter -/

section Bloom

variable {bloom : Nat → UInt8} {ctx d : List UInt8}

def BloomHas (bloom : Nat → UInt8) (ctx : List UInt8) : Prop :=
  bloomBit bloom (fnv ctx) = true ∧ bloomBit bloom (fnv ctx * 2654435761) = true

theorem bloomSetBit_has (ch : UInt32) (bloom : Nat → UInt8) :
    bloomBit (bloomSetBit ch bloom) ch = true := Bitmap.insert_low _ _ _

theorem bloomSetBit_keeps {ch : UInt32} (h : bloomBit bloom ch = true) (ch' : UInt32) :
    bloomBit (bloomSetBit ch' bloom) ch = true := Bitmap.Has.insert h _ _

theorem bloomSet_has (ctx : List UInt8) (bloom : Nat → UInt8) :
    BloomHas (bloomSet ctx bloom) ctx :=
  ⟨bloomSetBit_keeps (bloomSetBit_has _ _) _, bloomSetBit_has _ _⟩

theorem bloomSet_keeps (h : BloomHas bloom d) (ctx : List UInt8) :
    BloomHas (bloomSet ctx bloom) d :=
  ⟨bloomSetBit_keeps (bloomSetBit_keeps h.1 _) _, bloomSetBit_keeps (bloomSetBit_keeps h.2 _) _⟩

theorem bloomChk_of_has (h : BloomHas bloom ctx) : bloomChk bloom ctx = true := by
  unfold bloomChk
  dsimp only
  rw [h.1]
  exact h.2

end Bloom

/-! ## Pools -/

/-- The pool holds the pairs with their counts. -/
structure TableOf (T : Counts) (t : Pool BtEntry) : Prop where
  stores : Pool.Stores btKeys T.pairs t
  cap : t.cap = btPool
  freq : ∀ i k, T.pairs[i]? = some k → (t.pool i).freq = UInt32.ofNat (T.freq k)

/-- The pool holds the contexts with theirs. -/
structure CtxsOf (T : Counts) (t : Pool CtxEntry) : Prop where
  stores : Pool.Stores ctxKeys T.ctxs t
  cap : t.cap = ctxPool
  total : ∀ i c, T.ctxs[i]? = some c → (t.pool i).totalFreq = UInt32.ofNat (T.total c)
  unique : ∀ i c, T.ctxs[i]? = some c →
    (t.pool i).uniqueNext = UInt32.ofNat (T.chain c).length

section Pools

variable {T : Counts} {t : Pool BtEntry} {cs : Pool CtxEntry} {ctx : List UInt8} {b : UInt8}

namespace TableOf

theorem again (h : TableOf T t) (hnodup : T.pairs.Nodup) {i : Nat}
    (hi : T.pairs[i]? = some (ctx, b)) :
    TableOf (T.again (ctx, b)) (t.modify i fun e => { e with freq := e.freq + 1 }) where
  stores := h.stores.modify (fun _ => rfl) rfl rfl
  cap := h.cap
  freq j k hj := by
    rw [Pool.modify_pool, apply_ite BtEntry.freq]
    exact freq_again h.freq hnodup hi hj

theorem addPair (h : TableOf T t) (hctx : ctx.length ≤ btMaxDepth) (hnew : (ctx, b) ∉ T.pairs)
    (hroom : t.used < btPool) : TableOf (T.addPair (ctx, b)) (t.push (btBucket (fnv ctx) b)
      (newBtEntry ctx b (t.buckets (btBucket (fnv ctx) b)) (t.pool t.used))) where
  stores := h.stores.push (k := (ctx, b)) (h.cap.symm ▸ hroom) (newBtEntry_same hctx b _ _) rfl
  cap := h.cap
  freq j k hj := by
    rw [Pool.push_pool, h.stores.used, apply_ite BtEntry.freq]
    exact freq_addPair h.freq hnew hj

theorem find_some (h : TableOf T t) (hnodup : T.pairs.Nodup) {i : Nat}
    (hi : T.pairs[i]? = some (ctx, b)) :
    t.find BtEntry.chain (btSame ctx b) (btBucket (fnv ctx) b) = .ok (some i) :=
  h.stores.find_some (k := (ctx, b)) hnodup hi

theorem find_none (h : TableOf T t) (hmem : (ctx, b) ∉ T.pairs) :
    t.find BtEntry.chain (btSame ctx b) (btBucket (fnv ctx) b) = .ok none :=
  h.stores.find_none (k := (ctx, b)) hmem

theorem btCount_spec (h : TableOf T t) (hnodup : T.pairs.Nodup) (hctx : ctx.length ≤ btMaxDepth)
    (b : UInt8) : ∃ t', btCount ctx (fnv ctx) b t =
        .ok ((T.recordPair (t.used < btPool) (ctx, b)).1.map Option.isSome, t') ∧
      TableOf (T.recordPair (t.used < btPool) (ctx, b)).2 t' := by
  unfold btCount Tally.recordPair
  rw [← h.stores.used]
  dsimp only
  by_cases hmem : (ctx, b) ∈ T.pairs
  · obtain ⟨i, hi⟩ := List.mem_iff_getElem?.1 hmem
    rw [if_pos hmem, h.find_some hnodup hi]
    exact ⟨_, rfl, h.again hnodup hi⟩
  · rw [if_neg hmem, h.find_none hmem, ok_bind]
    dsimp only
    by_cases hfull : btPool ≤ t.used
    · rw [if_pos hfull, if_neg (by simpa using hfull)]
      exact ⟨_, rfl, h⟩
    · rw [if_neg hfull, if_pos (by simpa using hfull)]
      exact ⟨_, rfl, h.addPair hctx hmem (not_le.1 hfull)⟩

end TableOf

namespace CtxsOf

theorem addCtx (h : CtxsOf T cs) (hctx : ctx.length ≤ btMaxDepth) (htotal : T.total ctx = 0)
    (hchain : T.chain ctx = []) (hroom : cs.used < ctxPool) :
    CtxsOf (T.addCtx ctx) (cs.push (ctxBucket (fnv ctx))
      (newCtxEntry ctx (cs.buckets (ctxBucket (fnv ctx))) (cs.pool cs.used))) where
  stores := h.stores.push (k := ctx) (h.cap.symm ▸ hroom) (newCtxEntry_same hctx _ _) rfl
  cap := h.cap
  total j c hj := by
    rw [Pool.push_pool, h.stores.used]
    rcases Tally.getElem?_snoc hj with ⟨rfl, rfl⟩ | ⟨hlt, hj⟩
    · rw [if_pos rfl]
      exact htotal ▸ rfl
    · rw [if_neg hlt.ne]
      exact h.total j c hj
  unique j c hj := by
    rw [Pool.push_pool, h.stores.used]
    rcases Tally.getElem?_snoc hj with ⟨rfl, rfl⟩ | ⟨hlt, hj⟩
    · rw [if_pos rfl]
      exact hchain ▸ rfl
    · rw [if_neg hlt.ne]
      exact h.unique j c hj

theorem ctxFindH_some (h : CtxsOf T cs) (hnodup : T.ctxs.Nodup) {i : Nat}
    (hi : T.ctxs[i]? = some ctx) : ctxFindH ctx (fnv ctx) cs = .ok (some i) :=
  h.stores.find_some hnodup hi

theorem ctxFindH_none (h : CtxsOf T cs) (hmem : ctx ∉ T.ctxs) :
    ctxFindH ctx (fnv ctx) cs = .ok none := h.stores.find_none hmem

theorem ctxGetH_spec {extra : List UInt8 → Nat} (h : CtxsOf T cs) (hsound : T.Sound extra)
    (hctx : ctx.length ≤ btMaxDepth) : ∃ o cs', ctxGetH ctx (fnv ctx) cs = .ok (o, cs') ∧
      CtxsOf (T.recordCtx (cs.used < ctxPool) ctx).2 cs' ∧
      o.isSome = (T.recordCtx (cs.used < ctxPool) ctx).1 ∧
      ∀ i, o = some i → (T.recordCtx (cs.used < ctxPool) ctx).2.ctxs[i]? = some ctx := by
  unfold ctxGetH Tally.recordCtx
  by_cases hmem : ctx ∈ T.ctxs
  · obtain ⟨i, hi⟩ := List.mem_iff_getElem?.1 hmem
    rw [if_pos hmem, h.ctxFindH_some hsound.ctxs_nodup hi]
    refine ⟨some i, cs, rfl, h, rfl, ?_⟩
    rintro j ⟨rfl⟩
    exact hi
  · rw [if_neg hmem, h.ctxFindH_none hmem, ok_bind]
    dsimp only
    by_cases hfull : ctxPool ≤ cs.used
    · rw [if_pos hfull, if_neg (by simpa using hfull)]
      exact ⟨none, cs, rfl, h, rfl, nofun⟩
    · have hchain : T.chain ctx = [] := by
        by_contra hne
        exact hmem (hsound.chain_ctxs ctx hne)
      rw [if_neg hfull, if_pos (by simpa using hfull)]
      refine ⟨some cs.used, _, rfl,
        h.addCtx hctx (hsound.total_ctxs ctx hmem) hchain (not_le.1 hfull), rfl, ?_⟩
      rintro j ⟨rfl⟩
      rw [h.stores.used]
      exact List.getElem?_concat_length

theorem bump (h : CtxsOf T cs) (hnodup : T.ctxs.Nodup) {cc : Nat} (hcc : T.ctxs[cc]? = some ctx)
    (new : Option Nat) : CtxsOf (T.bump new ctx) (cs.modify cc fun e => { e with
      totalFreq := e.totalFreq + 1
      uniqueNext := if new.isSome then e.uniqueNext + 1 else e.uniqueNext }) := by
  have hother : ∀ {i c}, T.ctxs[i]? = some c → i ≠ cc → c ≠ ctx := by
    rintro i c hi hne rfl
    obtain ⟨hlt, -⟩ := List.getElem?_eq_some_iff.1 hi
    exact hne ((List.getElem?_inj hlt hnodup).1 (hi.trans hcc.symm))
  refine ⟨h.stores.modify (fun _ => rfl) rfl rfl, h.cap, ?_, ?_⟩
  · intro i c hi
    rw [Pool.modify_pool]
    change _ = UInt32.ofNat (Function.update T.total ctx (T.total ctx + 1) c)
    by_cases hic : i = cc
    · subst hic
      obtain rfl := Option.some.inj (hi.symm.trans hcc)
      rw [if_pos rfl, Function.update_self, UInt32.ofNat_add, ← h.total i c hi]
      rfl
    · rw [if_neg hic, Function.update_of_ne (hother hi hic)]
      exact h.total i c hi
  · intro i c hi
    rw [Pool.modify_pool]
    by_cases hic : i = cc
    · subst hic
      obtain rfl := Option.some.inj (hi.symm.trans hcc)
      rw [if_pos rfl]
      cases new with
      | none => exact h.unique i c hi
      | some j =>
        have hchain : (T.bump (some j) c).chain c = j :: T.chain c := Function.update_self _ _ _
        rw [hchain, List.length_cons, UInt32.ofNat_add, ← h.unique i c hi]
        rfl
    · have hchain : (T.bump new ctx).chain c = T.chain c := by
        cases new with
        | none => rfl
        | some j => exact Function.update_of_ne (hother hi hic) _ _
      rw [if_neg hic, hchain]
      exact h.unique i c hi

theorem recordPair (h : CtxsOf T cs) (room : Bool) (k : List UInt8 × UInt8) :
    CtxsOf (T.recordPair room k).2 cs := by
  obtain ⟨hctxs, htotal, hchain, -⟩ := Tally.recordPair_ctxs room k T
  exact ⟨hctxs ▸ h.stores, h.cap, hctxs ▸ htotal ▸ h.total, hctxs ▸ hchain ▸ h.unique⟩

end CtxsOf

theorem TableOf.bump (h : TableOf T t) (new : Option Nat) (c : List UInt8) :
    TableOf (T.bump new c) t := ⟨h.stores, h.cap, h.freq⟩

theorem TableOf.recordCtx (h : TableOf T t) (room : Bool) (c : List UInt8) :
    TableOf (T.recordCtx room c).2 t := by
  obtain ⟨hpairs, hfreq, -⟩ := Tally.recordCtx_pairs room c T
  exact ⟨hpairs ▸ h.stores, h.cap, hpairs ▸ hfreq ▸ h.freq⟩

end Pools

/-! ## Training -/

/-- The globals stand for a tally. -/
structure Represents (T : Counts) (g : Globals) : Prop where
  sound : T.Sound fun _ => 0
  table : TableOf T g.table
  ctx : CtxsOf T g.ctx
  bloom : ∀ c ∈ T.seen, BloomHas g.bloom c

theorem init_represents (ctxs : Nat → CtxEntry) : Represents Tally.empty (btV4Init ctxs) where
  sound := Tally.empty_sound
  table := ⟨⟨rfl, Nat.zero_le _, (by decide : btPool ≤ 2 ^ 31),
    fun _ => Nat.lt_succ_of_le Nat.and_le_right, nofun, Hung.empty _ _⟩, rfl, nofun⟩
  ctx := ⟨⟨rfl, Nat.zero_le _, (by decide : ctxPool ≤ 2 ^ 31),
    fun _ => Nat.lt_succ_of_le Nat.and_le_right, nofun, Hung.empty _ _⟩, rfl, nofun, nofun⟩
  bloom := nofun

section Training

variable {T : Counts} {g : Globals} {ctx : List UInt8} {b : UInt8}

theorem Represents.update (h : Represents T g) (hpos : 0 < ctx.length)
    (hlen : ctx.length ≤ btMaxDepth) (b : UInt8) : ∃ g', btUpdate ctx b g = .ok g' ∧
      Represents (T.updateWithin btPool ctxPool (ctx, b)) g' ∧ g'.window = g.window := by
  have hguard : ¬ (ctx.length = 0 ∨ btMaxDepth < ctx.length) :=
    not_or.2 ⟨hpos.ne', not_lt.2 hlen⟩
  have hwithin : T.updateWithin btPool ctxPool (ctx, b) =
      T.update (g.table.used < btPool) (g.ctx.used < ctxPool) (ctx, b) := by
    rw [Tally.updateWithin, h.table.stores.used, h.ctx.stores.used]
  have hsound := h.sound.update (g.table.used < btPool) (g.ctx.used < ctxPool) (ctx, b)
  have hseen := (Tally.update_pairs (g.table.used < btPool) (g.ctx.used < ctxPool) (ctx, b) T).2
  have hbloom : ∀ c ∈ T.seen ++ [ctx], BloomHas (bloomSet ctx g.bloom) c := by
    intro c hc
    rcases List.mem_append.1 hc with hc | hc
    · exact bloomSet_keeps (h.bloom c hc) ctx
    · rw [List.mem_singleton.1 hc]
      exact bloomSet_has ctx g.bloom
  have hP : TableOf (T.see ctx) g.table := ⟨h.table.stores, h.table.cap, h.table.freq⟩
  have hC : CtxsOf (T.see ctx) g.ctx := ⟨h.ctx.stores, h.ctx.cap, h.ctx.total, h.ctx.unique⟩
  obtain ⟨table, hcount, hP'⟩ := hP.btCount_spec h.sound.pairs_nodup hlen b
  have hC' := hC.recordPair (g.table.used < btPool) (ctx, b)
  rw [hwithin, btUpdate, if_neg hguard]
  dsimp only
  rw [hcount, ok_bind]
  cases hrec : ((T.see ctx).recordPair (g.table.used < btPool) (ctx, b)).1 with
  | none =>
    rw [Tally.recordPair_none hrec] at hP' hC'
    rw [Tally.update_of_none hrec] at hsound hseen ⊢
    exact ⟨_, rfl, ⟨hsound, hP', hC', hseen ▸ hbloom⟩, rfl⟩
  | some new =>
    obtain ⟨hsound', -⟩ := h.sound.recordPair hrec
    obtain ⟨o, cs, hget, hC'', hsome, hplace⟩ := hC'.ctxGetH_spec hsound' hlen
    have hP'' := hP'.recordCtx (g.ctx.used < ctxPool) ctx
    rw [Tally.update_of_some hrec] at hsound hseen ⊢
    dsimp only [Option.map_some]
    rw [hget, ok_bind]
    cases o with
    | none =>
      rw [Tally.follow_of_false hsome.symm] at hsound hseen ⊢
      exact ⟨_, rfl, ⟨hsound, hP'', hC'', hseen ▸ hbloom⟩, rfl⟩
    | some cc =>
      rw [Tally.follow_of_true hsome.symm] at hsound hseen ⊢
      exact ⟨_, rfl, ⟨hsound, hP''.bump _ _, hC''.bump hsound.ctxs_nodup (hplace cc rfl) new,
        hseen ▸ hbloom⟩, rfl⟩

theorem Represents.train (h : Represents T g) (b : UInt8) : ∃ g', btV4Train b g = .ok g' ∧
    Represents ((Ngram.ends g.window.bytes b).foldl
      (fun T k => T.updateWithin btPool ctxPool k) T) g' ∧ g'.window = g.window.push b := by
  have hloop := foldlM_ok (l := List.range' 1 g.window.bytes.length) (b := g)
    (f := fun g n => btUpdate (g.window.last n) b g)
    (P := fun ns g1 => Represents ((ns.map fun n => (g.window.last n, b)).foldl
      (fun T k => T.updateWithin btPool ctxPool k) T) g1 ∧ g1.window = g.window) ⟨h, rfl⟩ ?_
  · obtain ⟨g1, hrun, h1, hw⟩ := hloop
    refine ⟨{ g1 with window := g1.window.push b }, ?_, ⟨h1.sound, h1.table, h1.ctx, h1.bloom⟩, ?_⟩
    · rw [btV4Train, hrun]
      rfl
    · rw [← hw]
  · rintro pre n post hl g1 ⟨h1, hw⟩
    have hn : n ∈ List.range' 1 g.window.bytes.length := by
      rw [hl]
      exact List.mem_append_right _ List.mem_cons_self
    obtain ⟨hpos, hlen⟩ := last_mem hn
    obtain ⟨g2, hrun, h2, hw2⟩ := h1.update hpos hlen b
    refine ⟨g2, by rw [hw]; exact hrun, ?_, hw2.trans hw⟩
    rw [List.map_append, List.foldl_append]
    exact h2

/-- Training always returns, and counts as far as there is room. -/
theorem btV4TrainAll_represents (ctxs : Nat → CtxEntry) (s : List UInt8) :
    ∃ g, btV4TrainAll s (btV4Init ctxs) = .ok g ∧
      Represents (Tally.within btPool ctxPool (Ngram.log btMaxDepth s)) g ∧
      g.window.bytes = Ngram.tail btMaxDepth s := by
  apply foldlM_ok (P := fun pre g => Represents (Tally.within btPool ctxPool
    (Ngram.log btMaxDepth pre)) g ∧ g.window.bytes = Ngram.tail btMaxDepth pre)
  · exact ⟨init_represents ctxs, rfl⟩
  · rintro pre b post - g ⟨h, hw⟩
    obtain ⟨g', hrun, h', hw'⟩ := h.train b
    refine ⟨g', hrun, ?_, ?_⟩
    · rw [Ngram.log_concat, ← hw, Tally.within, List.foldl_append]
      exact h'
    · rw [hw']
      exact push_tail hw b

end Training

end Bcb.V0
