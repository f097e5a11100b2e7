import Bcb.Bt.Index
import Bcb.Bt.Train
import Bcb.Lib.Bitmap
import Bcb.Lib.Ngram
import Bcb.Lib.Tally

namespace Bcb.Bt

open Lib

/-! ## Entries and keys -/

section Keys

variable {ectx : Fin btMaxDepth → UInt8} {len : UInt8} {ctx d : List UInt8} {b : UInt8}

@[simp] theorem sameCtx_iff : sameCtx ectx len ctx = true ↔
    len.toNat = ctx.length ∧ (List.ofFn ectx).take ctx.length = ctx := by
  simp [sameCtx]

theorem fnvEntry_of_same (h : sameCtx ectx len ctx = true) : fnvEntry ectx len = fnv ctx := by
  obtain ⟨hlen, htake⟩ := sameCtx_iff.1 h
  rw [fnvEntry, hlen, htake]

theorem sameCtx_unique (h : sameCtx ectx len ctx = true) (h' : sameCtx ectx len d = true) :
    ctx = d := by
  obtain ⟨hlen, htake⟩ := sameCtx_iff.1 h
  obtain ⟨hlen', htake'⟩ := sameCtx_iff.1 h'
  rw [← htake, ← htake', ← hlen, ← hlen']

theorem sameCtx_copyCtx (h : ctx.length ≤ btMaxDepth) :
    sameCtx (copyCtx ectx ctx) (UInt8.ofNat ctx.length) ctx = true := by
  rw [sameCtx_iff]
  simp only [btMaxDepth] at h
  constructor
  · rw [UInt8.toNat_ofNat_of_lt']
    exact lt_of_le_of_lt h (by decide)
  · apply List.ext_getElem
    · simp only [List.length_take, List.length_ofFn, btMaxDepth]
      omega
    · intro i _ hi
      rw [List.getElem_take, List.getElem_ofFn]
      change ctx.getD i _ = ctx[i]
      rw [List.getD_eq_getElem?_getD, List.getElem?_eq_getElem hi, Option.getD_some]

@[simp] theorem btSame_iff {e : BtEntry} :
    btSame ctx b e = true ↔ e.nextByte = b ∧ sameCtx e.ctx e.ctxLen ctx = true := by
  simp [btSame]

theorem btHash_of_same {e : BtEntry} (h : btSame ctx b e = true) :
    btHash e = btKey (fnv ctx) b := by
  obtain ⟨hb, hctx⟩ := btSame_iff.1 h
  rw [btHash, fnvEntry_of_same hctx, hb]

theorem btSame_unique {e : BtEntry} {b' : UInt8} (h : btSame ctx b e = true)
    (h' : btSame d b' e = true) : (ctx, b) = (d, b') := by
  obtain ⟨hb, hctx⟩ := btSame_iff.1 h
  obtain ⟨hb', hctx'⟩ := btSame_iff.1 h'
  rw [sameCtx_unique hctx hctx', ← hb, hb']

theorem ctxHash_of_same {e : CtxEntry} (h : ctxSame ctx e = true) : ctxHash e = fnv ctx :=
  fnvEntry_of_same h

theorem newBtEntry_same (h : ctx.length ≤ btMaxDepth) (b : UInt8) (old : BtEntry) :
    btSame ctx b (newBtEntry ctx b old) = true := btSame_iff.2 ⟨rfl, sameCtx_copyCtx h⟩

theorem newCtxEntry_same (h : ctx.length ≤ btMaxDepth) (old : CtxEntry) :
    ctxSame ctx (newCtxEntry ctx old) = true := sameCtx_copyCtx h

end Keys

/-! ## The bloom filter -/

section Bloom

variable {B : Build} {bloom : Nat → UInt8} {ctx d : List UInt8}

def bloomHasBit (B : Build) (bloom : Nat → UInt8) (ch : UInt32) : Prop :=
  (bloom ((ch.toNat &&& B.bloomMask) / 8)).toNat.testBit (ch.toNat % 8) = true

def BloomHas (B : Build) (bloom : Nat → UInt8) (ctx : List UInt8) : Prop :=
  bloomHasBit B bloom (fnv ctx) ∧ bloomHasBit B bloom (fnv ctx * 2654435761)

theorem bloomSetBit_has (ch : UInt32) : bloomHasBit B (bloomSetBit B ch bloom) ch :=
  Bitmap.insert_low _ _ _

theorem bloomSetBit_keeps {ch : UInt32} (h : bloomHasBit B bloom ch) (ch' : UInt32) :
    bloomHasBit B (bloomSetBit B ch' bloom) ch := Bitmap.Has.insert h _ _

theorem bloomSet_has (ctx : List UInt8) : BloomHas B (bloomSet B ctx bloom) ctx :=
  ⟨bloomSetBit_keeps (bloomSetBit_has _) _, bloomSetBit_has _⟩

theorem bloomSet_keeps (h : BloomHas B bloom d) (ctx : List UInt8) :
    BloomHas B (bloomSet B ctx bloom) d :=
  ⟨bloomSetBit_keeps (bloomSetBit_keeps h.1 _) _, bloomSetBit_keeps (bloomSetBit_keeps h.2 _) _⟩

end Bloom

/-! ## Pools -/

abbrev Counts := Tally (List UInt8) UInt8

/-- The pool holds the pairs with their counts. -/
structure PoolOf (T : Counts) (t : Table BtEntry) : Prop where
  indexed : t.Indexed btHash
  used : t.used = T.pairs.length
  same : ∀ i k, T.pairs[i]? = some k → btSame k.1 k.2 (t.pool i) = true
  freq : ∀ i k, T.pairs[i]? = some k → (t.pool i).freq = UInt32.ofNat (T.freq k)

/-- The context entry of `c`. -/
structure CtxEntryOf (T : Counts) (next : Nat → Option Nat) (c : List UInt8) (e : CtxEntry) :
    Prop where
  same : ctxSame c e = true
  total : e.totalFreq = UInt32.ofNat (T.total c)
  unique : e.uniqueNext = UInt32.ofNat (T.chain c).length
  chain : Chain next (link e.firstEntry) (T.chain c)

structure CtxPoolOf (T : Counts) (next : Nat → Option Nat) (t : Table CtxEntry) : Prop where
  indexed : t.Indexed ctxHash
  used : t.used = T.ctxs.length
  entry : ∀ i c, T.ctxs[i]? = some c → CtxEntryOf T next c (t.pool i)

/-! The words that hold the frequencies of the pairs, wherever they lie. -/

section Words

variable {T : Counts} {f : Nat → UInt32} {k : List UInt8 × UInt8}
  (hf : ∀ i k, T.pairs[i]? = some k → f i = UInt32.ofNat (T.freq k))

include hf

theorem freq_again (hnodup : T.pairs.Nodup) {i : Nat} (hi : T.pairs[i]? = some k) {j : Nat}
    {k' : List UInt8 × UInt8} (hj : T.pairs[j]? = some k') :
    (if j = i then f i + 1 else f j) = UInt32.ofNat ((T.again k).freq k') := by
  change _ = UInt32.ofNat (Function.update T.freq k (T.freq k + 1) k')
  by_cases hji : j = i
  · subst hji
    obtain rfl := Option.some.inj (hi.symm.trans hj)
    rw [if_pos rfl, Function.update_self, hf j k hj, UInt32.ofNat_add]
    rfl
  · have hk : k' ≠ k := by
      rintro rfl
      obtain ⟨hlt, -⟩ := List.getElem?_eq_some_iff.1 hj
      exact hji ((List.getElem?_inj hlt hnodup).1 (hj.trans hi.symm))
    rw [if_neg hji, Function.update_of_ne hk, hf j k' hj]

theorem freq_addPair (hnew : k ∉ T.pairs) {j : Nat} {k' : List UInt8 × UInt8}
    (hj : (T.pairs ++ [k])[j]? = some k') :
    (if j = T.pairs.length then 1 else f j) = UInt32.ofNat ((T.addPair k).freq k') := by
  change _ = UInt32.ofNat (Function.update T.freq k 1 k')
  rcases Tally.getElem?_snoc hj with ⟨rfl, rfl⟩ | ⟨hlt, hj⟩
  · rw [if_pos rfl, Function.update_self]
    rfl
  · have hk : k' ≠ k := fun heq => hnew (heq ▸ List.mem_of_getElem? hj)
    rw [if_neg hlt.ne, Function.update_of_ne hk, hf j k' hj]

end Words

/-- The links of a pool. -/
def nextOf (t : Table BtEntry) (i : Nat) : Option Nat := link (t.pool i).ctxNext

section Pool

variable {B : Build} {T : Counts} {t : Table BtEntry} {ctx : List UInt8} {b : UInt8}

namespace PoolOf

theorem same_iff (h : PoolOf T t) {i : Nat} (hi : i < t.used) :
    btSame ctx b (t.pool i) = true ↔ T.pairs[i]? = some (ctx, b) := by
  rw [h.used] at hi
  have hk := h.same i _ (List.getElem?_eq_getElem hi)
  constructor
  · intro hs
    rw [List.getElem?_eq_getElem hi, btSame_unique hs hk]
  · exact h.same i (ctx, b)

theorem exists_same (h : PoolOf T t) (hint : t.used ≤ 2 ^ 31) :
    (∃ i < t.named, btSame ctx b (t.pool i) = true) ↔ (ctx, b) ∈ T.pairs := by
  rw [t.named_eq hint, List.mem_iff_getElem?]
  constructor
  · rintro ⟨i, hi, hs⟩
    exact ⟨i, (h.same_iff hi).1 hs⟩
  · rintro ⟨i, hi⟩
    obtain ⟨hlt, -⟩ := List.getElem?_eq_some_iff.1 hi
    rw [← h.used] at hlt
    exact ⟨i, hlt, (h.same_iff hlt).2 hi⟩

theorem again (h : PoolOf T t) (hnodup : T.pairs.Nodup) {i : Nat}
    (hi : T.pairs[i]? = some (ctx, b)) :
    PoolOf (T.again (ctx, b)) (t.modify i fun e => { e with freq := e.freq + 1 }) where
  indexed := h.indexed.modify rfl
  used := h.used
  same j k hj := by
    rw [Table.modify_pool]
    split_ifs with hji
    · exact hji ▸ h.same j k hj
    · exact h.same j k hj
  freq j k hj := by
    rw [Table.modify_pool, apply_ite BtEntry.freq]
    exact freq_again h.freq hnodup hi hj

theorem addPair (h : PoolOf T t) (hctx : ctx.length ≤ btMaxDepth) (hnew : (ctx, b) ∉ T.pairs)
    {s : Nat} (hfree : t.FreeAt (btKey (fnv ctx) b) s) (hcap : t.used < t.cap)
    (hint : t.used < 2 ^ 32) :
    PoolOf (T.addPair (ctx, b)) (t.put s t.used (newBtEntry ctx b (t.pool t.used))) where
  indexed := by
    apply h.indexed.put _ hcap hint
    rwa [btHash_of_same (newBtEntry_same hctx b _)]
  used := by
    change t.used + 1 = (T.pairs ++ [(ctx, b)]).length
    rw [List.length_append, h.used]
    rfl
  same j k hj := by
    rw [Table.put_pool, h.used]
    rcases Tally.getElem?_snoc hj with ⟨rfl, rfl⟩ | ⟨hlt, hj⟩
    · rw [if_pos rfl]
      exact newBtEntry_same hctx b _
    · rw [if_neg hlt.ne]
      exact h.same j k hj
  freq j k hj := by
    rw [Table.put_pool, h.used, apply_ite BtEntry.freq]
    exact freq_addPair h.freq hnew hj

theorem placed (h : PoolOf T t) {dynamic : Bool} {al : Growth} {t' : Table BtEntry}
    (hp : Table.Placed btHash dynamic al t t') : PoolOf T t' :=
  ⟨hp.indexed, hp.used.trans h.used, hp.pool ▸ h.same, hp.pool ▸ h.freq⟩

/-- What `bt_update` does to the pool, unless a full table keeps its search from ending. -/
theorem btCount_spec (h : PoolOf T t) (hnodup : T.pairs.Nodup) (hctx : ctx.length ≤ btMaxDepth)
    (hcap : 0 < t.cap) (al : Growth) (hroom : (ctx, b) ∈ T.pairs ∨ t.used < t.reach)
    (hint : T.pairs.length ≤ 2 ^ 31) :
    ∃ t', btCount B al ctx (fnv ctx) b t =
        .ok ((T.recordPair (t.hasRoom B.dynamic al) (ctx, b)).1, t') ∧
      PoolOf (T.recordPair (t.hasRoom B.dynamic al) (ctx, b)).2 t' ∧
      (∀ i < t.used, nextOf t' i = nextOf t i) ∧
      (t'.cap, t'.nslots) =
        if (ctx, b) ∈ T.pairs then (t.cap, t.nslots) else t.placedSizes B.dynamic al := by
  have hused : t.used ≤ 2 ^ 31 := h.used.trans_le hint
  by_cases hmem : (ctx, b) ∈ T.pairs
  · rw [Tally.recordPair, if_pos hmem]
    obtain ⟨i, hi, his, hrun⟩ := h.indexed.place_found (fun i _ hs => btHash_of_same hs)
      ((h.exists_same hused).2 hmem) B.dynamic al
    have hpair := (h.same_iff (hi.trans_le t.named_le)).1 his
    refine ⟨t.modify i fun e => { e with freq := e.freq + 1 }, ?_, h.again hnodup hpair, ?_,
      (if_pos hmem).symm⟩
    · rw [btCount, hrun]
      rfl
    · intro j _
      rw [nextOf, nextOf, Table.modify_pool]
      split_ifs with hji
      · rw [hji]
      · rfl
  · have hnew : ∀ i < t.named, ¬ btSame ctx b (t.pool i) = true := fun i hi hs =>
      hmem ((h.exists_same hused).1 ⟨i, hi, hs⟩)
    obtain ⟨t', hp, hrun⟩ := h.indexed.place_new hcap (hroom.resolve_left hmem) hnew B.dynamic al
      (btKey (fnv ctx) b)
    rw [Tally.recordPair, if_neg hmem, if_neg hmem]
    split_ifs at hrun ⊢ with hr
    · obtain ⟨s, hrun, hfree, hlt⟩ := hrun
      have hint' : t'.used < 2 ^ 32 := by
        have hu := hp.used
        omega
      have hput := (h.placed hp).addPair hctx hmem hfree hlt hint'
      refine ⟨t'.put s t'.used (newBtEntry ctx b (t'.pool t'.used)), ?_, hput, ?_, hp.sizes⟩
      · rw [btCount, hrun, ← h.used, ← hp.used]
        rfl
      · intro j hj
        have hne : j ≠ t'.used := hp.used ▸ hj.ne
        rw [nextOf, nextOf, Table.put_pool, if_neg hne, hp.pool]
    · refine ⟨t', ?_, h.placed hp, fun j _ => by rw [nextOf, nextOf, hp.pool], hp.sizes⟩
      rw [btCount, hrun]
      rfl

theorem btCount_full (h : PoolOf T t) (hle : t.used ≤ 2 ^ 31) (hmem : (ctx, b) ∉ T.pairs)
    (hfull : t.reach ≤ t.used) (al : Growth) :
    btCount B al ctx (fnv ctx) b t = .error .diverge := by
  have hnew : ∀ i < t.named, ¬ btSame ctx b (t.pool i) = true := fun i hi hs =>
    hmem ((h.exists_same hle).1 ⟨i, hi, hs⟩)
  rw [btCount, h.indexed.place_full ((t.named_eq hle).symm ▸ hfull) hnew]
  rfl

end PoolOf

theorem PoolOf.relink (h : PoolOf T t) (j : Nat) (idx : Int) :
    PoolOf T (t.modify j fun e => { e with ctxNext := idx }) where
  indexed := h.indexed.modify rfl
  used := h.used
  same i k hi := by
    rw [Table.modify_pool]
    split_ifs with hij
    · exact hij ▸ h.same i k hi
    · exact h.same i k hi
  freq i k hi := by
    rw [Table.modify_pool]
    split_ifs with hij
    · exact hij ▸ h.freq i k hi
    · exact h.freq i k hi

theorem nextOf_relink (t : Table BtEntry) (j : Nat) (idx : Int) :
    nextOf (t.modify j fun e => { e with ctxNext := idx }) =
      Function.update (nextOf t) j (link idx) := by
  funext i
  rw [nextOf, Table.modify_pool, Function.update_apply]
  split_ifs <;> rfl

end Pool

section CtxPool

variable {B : Build} {T : Counts} {next : Nat → Option Nat} {t : Table CtxEntry}
  {ctx : List UInt8}

namespace CtxPoolOf

theorem same_iff (h : CtxPoolOf T next t) {i : Nat} (hi : i < t.used) :
    ctxSame ctx (t.pool i) = true ↔ T.ctxs[i]? = some ctx := by
  rw [h.used] at hi
  have hk := (h.entry i _ (List.getElem?_eq_getElem hi)).same
  constructor
  · intro hs
    rw [List.getElem?_eq_getElem hi, sameCtx_unique hs hk]
  · exact fun hc => (h.entry i ctx hc).same

theorem exists_same (h : CtxPoolOf T next t) (hint : t.used ≤ 2 ^ 31) :
    (∃ i < t.named, ctxSame ctx (t.pool i) = true) ↔ ctx ∈ T.ctxs := by
  rw [t.named_eq hint, List.mem_iff_getElem?]
  constructor
  · rintro ⟨i, hi, hs⟩
    exact ⟨i, (h.same_iff hi).1 hs⟩
  · rintro ⟨i, hi⟩
    obtain ⟨hlt, -⟩ := List.getElem?_eq_some_iff.1 hi
    rw [← h.used] at hlt
    exact ⟨i, hlt, (h.same_iff hlt).2 hi⟩

theorem placed (h : CtxPoolOf T next t) {dynamic : Bool} {al : Growth} {t' : Table CtxEntry}
    (hp : Table.Placed ctxHash dynamic al t t') : CtxPoolOf T next t' :=
  ⟨hp.indexed, hp.used.trans h.used, hp.pool ▸ h.entry⟩

theorem relink (h : CtxPoolOf T next t) {next' : Nat → Option Nat}
    (heq : ∀ c, ∀ j ∈ T.chain c, next' j = next j) : CtxPoolOf T next' t where
  indexed := h.indexed
  used := h.used
  entry i c hi := by
    obtain ⟨hsame, htotal, hunique, hchain⟩ := h.entry i c hi
    exact ⟨hsame, htotal, hunique, hchain.congr (heq c)⟩

theorem addCtx (h : CtxPoolOf T next t) (hctx : ctx.length ≤ btMaxDepth)
    (htotal : T.total ctx = 0) (hchain : T.chain ctx = []) {s : Nat}
    (hfree : t.FreeAt (fnv ctx) s) (hcap : t.used < t.cap) (hint : t.used < 2 ^ 32) :
    CtxPoolOf (T.addCtx ctx) next (t.put s t.used (newCtxEntry ctx (t.pool t.used))) where
  indexed := by
    apply h.indexed.put _ hcap hint
    rwa [ctxHash_of_same (newCtxEntry_same hctx _)]
  used := by
    change t.used + 1 = (T.ctxs ++ [ctx]).length
    rw [List.length_append, h.used]
    rfl
  entry j c hj := by
    rw [Table.put_pool, h.used]
    rcases Tally.getElem?_snoc hj with ⟨rfl, rfl⟩ | ⟨hlt, hj⟩
    · rw [if_pos rfl]
      refine ⟨newCtxEntry_same hctx _, ?_, ?_, ?_⟩
      · exact htotal ▸ rfl
      · exact hchain ▸ rfl
      · change Chain next (link (-1)) (T.chain c)
        rw [hchain]
        exact .nil
    · rw [if_neg hlt.ne]
      obtain ⟨hsame, htot, hunique, hch⟩ := h.entry j c hj
      exact ⟨hsame, htot, hunique, hch⟩

/-- `ctx_get_h`, unless a full table keeps its search from ending. -/
theorem ctxGetH_spec (h : CtxPoolOf T next t) (hctx : ctx.length ≤ btMaxDepth)
    (htotal : ctx ∉ T.ctxs → T.total ctx = 0) (hchain : ctx ∉ T.ctxs → T.chain ctx = [])
    (hcap : 0 < t.cap) (al : Growth) (hroom : ctx ∈ T.ctxs ∨ t.used < t.reach)
    (hint : ctx ∉ T.ctxs → t.used < 2 ^ 31) (hle : t.used ≤ 2 ^ 31) :
    ∃ o t', ctxGetH B al ctx (fnv ctx) t = .ok (o, t') ∧
      CtxPoolOf (T.recordCtx (t.hasRoom B.dynamic al) ctx).2 next t' ∧
      o.isSome = (T.recordCtx (t.hasRoom B.dynamic al) ctx).1 ∧
      (∀ i, o = some i → (T.recordCtx (t.hasRoom B.dynamic al) ctx).2.ctxs[i]? = some ctx) ∧
      (t'.cap, t'.nslots) =
        if ctx ∈ T.ctxs then (t.cap, t.nslots) else t.placedSizes B.dynamic al := by
  by_cases hmem : ctx ∈ T.ctxs
  · rw [Tally.recordCtx, if_pos hmem]
    obtain ⟨i, hi, his, hrun⟩ := h.indexed.place_found (fun i _ hs => ctxHash_of_same hs)
      ((h.exists_same hle).2 hmem) B.dynamic al
    refine ⟨some i, t, ?_, h, rfl, ?_, (if_pos hmem).symm⟩
    · simp only [ctxGetH, hrun, ok_bind]
      rfl
    · rintro j ⟨rfl⟩
      exact (h.same_iff (hi.trans_le t.named_le)).1 his
  · have hnew : ∀ i < t.named, ¬ ctxSame ctx (t.pool i) = true := fun i hi hs =>
      hmem ((h.exists_same hle).1 ⟨i, hi, hs⟩)
    obtain ⟨t', hp, hrun⟩ := h.indexed.place_new hcap (hroom.resolve_left hmem) hnew B.dynamic al
      (fnv ctx)
    rw [Tally.recordCtx, if_neg hmem, if_neg hmem]
    split_ifs at hrun ⊢ with hr
    · obtain ⟨s, hrun, hfree, hlt⟩ := hrun
      have hlt31 : t'.used < 2 ^ 31 := by
        rw [hp.used]
        exact hint hmem
      have hlt32 : t'.used < 2 ^ 32 := by omega
      have hadd := (h.placed hp).addCtx hctx (htotal hmem) (hchain hmem) hfree hlt hlt32
      refine ⟨some t'.used, _, ?_, hadd, rfl, ?_, hp.sizes⟩
      · have hidx : t'.used % 2 ^ 32 = t'.used := Nat.mod_eq_of_lt hlt32
        rw [ctxGetH, hrun, ok_bind]
        dsimp only
        rw [hidx, if_pos hlt31]
        rfl
      · rintro j ⟨rfl⟩
        change (T.ctxs ++ [ctx])[t'.used]? = some ctx
        rw [hp.used, h.used, List.getElem?_concat_length]
    · refine ⟨none, t', ?_, h.placed hp, rfl, fun i hi => absurd hi (Option.some_ne_none i).symm,
        hp.sizes⟩
      simp only [ctxGetH, hrun, ok_bind]
      rfl

theorem ctxGetH_full (h : CtxPoolOf T next t) (hle : t.used ≤ 2 ^ 31) (hmem : ctx ∉ T.ctxs)
    (hfull : t.reach ≤ t.used) (al : Growth) :
    ctxGetH B al ctx (fnv ctx) t = .error .diverge := by
  have hnew : ∀ i < t.named, ¬ ctxSame ctx (t.pool i) = true := fun i hi hs =>
    hmem ((h.exists_same hle).1 ⟨i, hi, hs⟩)
  rw [ctxGetH, h.indexed.place_full ((t.named_eq hle).symm ▸ hfull) hnew]
  rfl

theorem bump (h : CtxPoolOf T next t) (hnodup : T.ctxs.Nodup) {cc : Nat}
    (hcc : T.ctxs[cc]? = some ctx) {new : Option Nat} {next' : Nat → Option Nat}
    {f : CtxEntry → CtxEntry} (hctx : ∀ e, (f e).ctx = e.ctx ∧ (f e).ctxLen = e.ctxLen)
    (hent : CtxEntryOf T next ctx (t.pool cc) →
      CtxEntryOf (T.bump new ctx) next' ctx (f (t.pool cc)))
    (hnext : ∀ c, ∀ j ∈ T.chain c, next' j = next j) :
    CtxPoolOf (T.bump new ctx) next' (t.modify cc f) where
  indexed := by
    apply h.indexed.modify
    obtain ⟨hc, hl⟩ := hctx (t.pool cc)
    rw [ctxHash, ctxHash, hc, hl]
  used := h.used
  entry i c hi := by
    rw [Table.modify_pool]
    split_ifs with hic
    · subst hic
      obtain rfl : c = ctx := Option.some.inj (hi.symm.trans hcc)
      exact hent (h.entry i c hi)
    · have hne : c ≠ ctx := by
        rintro rfl
        obtain ⟨hlt, -⟩ := List.getElem?_eq_some_iff.1 hi
        exact hic ((List.getElem?_inj hlt hnodup).1 (hi.trans hcc.symm))
      obtain ⟨hsame, htotal, hunique, hchain⟩ := h.entry i c hi
      have hcs : (T.bump new ctx).chain c = T.chain c := by
        cases new with
        | none => rfl
        | some j => exact Function.update_of_ne hne _ _
      have hts : (T.bump new ctx).total c = T.total c := Function.update_of_ne hne _ _
      exact ⟨hsame, hts ▸ htotal, hcs ▸ hunique, hcs ▸ hchain.congr (hnext c)⟩

end CtxPoolOf

end CtxPool

/-! ## One update -/

/-- The globals stand for a tally. -/
structure Represents (B : Build) (T : Counts) (g : Globals) : Prop where
  sound : T.Sound fun _ => 0
  short : ∀ c ∈ T.seen, 0 < c.length ∧ c.length ≤ btMaxDepth
  bt : PoolOf T g.bt
  ctx : CtxPoolOf T (nextOf g.bt) g.ctx
  bloom : ∀ c ∈ T.seen, BloomHas B g.bloom c

theorem Represents.ctxAt {B : Build} {T : Counts} {g : Globals} (h : Represents B T g) {i : Nat}
    (hi : i < g.ctx.used) : T.ctxs[i]? = some (T.ctxs.getD i []) := by
  rw [h.ctx.used] at hi
  rw [List.getD_eq_getElem?_getD, List.getElem?_eq_getElem hi]
  rfl

theorem Represents.chains_disjoint {B : Build} {T : Counts} {g : Globals} (h : Represents B T g)
    {i i' : Nat} (hi : i < g.ctx.used) (hi' : i' < g.ctx.used) (hne : i ≠ i') {j : Nat}
    (hj : j ∈ T.chain (T.ctxs.getD i [])) : j ∉ T.chain (T.ctxs.getD i' []) := by
  intro hj'
  have hget := h.ctxAt hi
  rw [h.sound.chain_inj hj hj', ← h.ctxAt hi'] at hget
  exact hne ((List.getElem?_inj (h.ctx.used ▸ hi) h.sound.ctxs_nodup).1 hget)

section Update

variable {B : Build} {T : Counts} {g g' : Globals} {bt : Table BtEntry} {cs : Table CtxEntry}
  {ctx : List UInt8} {b : UInt8} {al : UpdateAlloc}

theorem init_represents (B : Build) (pool : Nat → BtEntry) (ctxPool : Nat → CtxEntry) :
    Represents B Tally.empty (btV3Init B pool ctxPool) where
  sound := Tally.empty_sound
  short _ h := nomatch h
  bt := ⟨.empty _ _ _ B.btNslots0_eq, rfl, fun _ _ h => (nomatch h), fun _ _ h => (nomatch h)⟩
  ctx := ⟨.empty _ _ _ B.ctxNslots0_eq, rfl, fun _ _ h => nomatch h⟩
  bloom _ h := nomatch h

theorem PoolOf.bump (h : PoolOf T bt) (new : Option Nat) (c : List UInt8) :
    PoolOf (T.bump new c) bt := ⟨h.indexed, h.used, h.same, h.freq⟩

/-- The end of `bt_update`: one more position after the context, and its new entry first. -/
theorem chainNew_spec (hbt : PoolOf T bt) (hcs : CtxPoolOf T (nextOf bt) cs)
    (hnodup : T.ctxs.Nodup) {cc : Nat} (hcc : T.ctxs[cc]? = some ctx) {new : Option Nat}
    (hnew : ∀ j, new = some j → j < 2 ^ 31 ∧ ∀ c, j ∉ T.chain c) :
    ∃ bt' cs', chainNew new cc bt (cs.modify cc fun e => { e with totalFreq := e.totalFreq + 1 }) =
        (bt', cs') ∧ PoolOf (T.bump new ctx) bt' ∧ CtxPoolOf (T.bump new ctx) (nextOf bt') cs' ∧
      (bt'.cap, bt'.nslots) = (bt.cap, bt.nslots) ∧ (cs'.cap, cs'.nslots) = (cs.cap, cs.nslots) := by
  have htotal : ∀ {e : CtxEntry}, e.totalFreq = UInt32.ofNat (T.total ctx) →
      e.totalFreq + 1 = UInt32.ofNat ((T.bump new ctx).total ctx) := by
    intro e he
    change _ = UInt32.ofNat (Function.update T.total ctx (T.total ctx + 1) ctx)
    rw [Function.update_self, UInt32.ofNat_add, he]
    rfl
  cases new with
  | none =>
    refine ⟨bt, _, rfl, hbt.bump _ _, ?_, rfl, rfl⟩
    refine hcs.bump hnodup hcc ?_ ?_ ?_
    · exact fun _ => ⟨rfl, rfl⟩
    · exact fun he => ⟨he.same, htotal he.total, he.unique, he.chain⟩
    · exact fun _ _ _ => rfl
  | some j =>
    obtain ⟨hj, hfree⟩ := hnew j rfl
    refine ⟨_, _, rfl, (hbt.relink j _).bump _ _, ?_, rfl, rfl⟩
    rw [Table.modify_modify, Table.modify_pool, if_pos rfl, nextOf_relink]
    have hnext : ∀ c, ∀ i ∈ T.chain c,
        Function.update (nextOf bt) j (link (cs.pool cc).firstEntry) i = nextOf bt i := by
      intro c i hi
      have hne : i ≠ j := fun heq => hfree c (heq ▸ hi)
      exact Function.update_of_ne hne _ _
    refine hcs.bump hnodup hcc ?_ ?_ hnext
    · exact fun _ => ⟨rfl, rfl⟩
    intro he
    have hchain : (T.bump (some j) ctx).chain ctx = j :: T.chain ctx :=
      Function.update_self _ _ _
    have hlink : link (toInt32 j) = some j := by
      rw [link_toInt32 (by omega), if_pos hj]
    refine ⟨he.same, htotal he.total, ?_, ?_⟩
    · rw [hchain, List.length_cons, UInt32.ofNat_add, ← he.unique]
      rfl
    · rw [hchain]
      have htail := he.chain.congr (hnext ctx)
      dsimp only [Function.comp_apply]
      rw [hlink]
      apply Chain.cons
      rwa [Function.update_self]

theorem CtxPoolOf.recordPair {next : Nat → Option Nat} (h : CtxPoolOf T next cs) (room : Bool)
    (k : List UInt8 × UInt8) : CtxPoolOf (T.recordPair room k).2 next cs := by
  obtain ⟨hctxs, htotal, hchain, -⟩ := Tally.recordPair_ctxs room k T
  refine ⟨h.indexed, hctxs ▸ h.used, ?_⟩
  intro i c hi
  obtain ⟨hsame, ht, hu, hc⟩ := h.entry i c (hctxs ▸ hi)
  exact ⟨hsame, htotal ▸ ht, hchain ▸ hu, hchain ▸ hc⟩

theorem PoolOf.recordCtx (h : PoolOf T bt) (room : Bool) (c : List UInt8) :
    PoolOf (T.recordCtx room c).2 bt := by
  obtain ⟨hpairs, hfreq, -⟩ := Tally.recordCtx_pairs room c T
  exact ⟨h.indexed, hpairs ▸ h.used, hpairs ▸ h.same, hfreq ▸ hpairs ▸ h.freq⟩

/-- What the room in the tables makes of the tally. -/
def Counts.updateIn (T : Counts) (B : Build) (al : UpdateAlloc) (g : Globals)
    (k : List UInt8 × UInt8) : Counts :=
  T.update (g.bt.hasRoom B.dynamic al.bt) (g.ctx.hasRoom B.dynamic al.ctx) k

/-- The globals after an update. -/
structure Updated (B : Build) (al : UpdateAlloc) (T : Counts) (k : List UInt8 × UInt8)
    (g g' : Globals) : Prop where
  represents : Represents B (T.updateIn B al g k) g'
  window : g'.window = g.window
  frozen : g'.frozen = g.frozen
  btSizes : (g'.bt.cap, g'.bt.nslots) =
    if k ∈ T.pairs then (g.bt.cap, g.bt.nslots) else g.bt.placedSizes B.dynamic al.bt
  ctxSizes : (g'.ctx.cap, g'.ctx.nslots) =
    if ((T.see k.1).recordPair (g.bt.hasRoom B.dynamic al.bt) k).1 = none ∨ k.1 ∈ T.ctxs then
      (g.ctx.cap, g.ctx.nslots)
    else g.ctx.placedSizes B.dynamic al.ctx

/-! The three ways an update goes. -/

section Ways

variable {bt bt' : Table BtEntry} {cs cs' : Table CtxEntry} {new : Option Nat}

theorem btUpdate_dropped (hguard : ¬ (ctx.length = 0 ∨ btMaxDepth < ctx.length))
    (hcount : btCount B al.bt ctx (fnv ctx) b g.bt = .ok (none, bt)) :
    btUpdate B al ctx b g = .ok { g with bt := bt, bloom := bloomSet B ctx g.bloom } := by
  rw [btUpdate, if_neg hguard]
  dsimp only
  rw [hcount]
  rfl

theorem btUpdate_unplaced (hguard : ¬ (ctx.length = 0 ∨ btMaxDepth < ctx.length))
    (hcount : btCount B al.bt ctx (fnv ctx) b g.bt = .ok (some new, bt))
    (hget : ctxGetH B al.ctx ctx (fnv ctx) g.ctx = .ok (none, cs)) : btUpdate B al ctx b g =
      .ok { g with bt := bt, ctx := cs, bloom := bloomSet B ctx g.bloom } := by
  rw [btUpdate, if_neg hguard]
  dsimp only
  rw [hcount, ok_bind]
  dsimp only
  rw [hget]
  rfl

theorem btUpdate_placed {cc : Nat} (hguard : ¬ (ctx.length = 0 ∨ btMaxDepth < ctx.length))
    (hcount : btCount B al.bt ctx (fnv ctx) b g.bt = .ok (some new, bt))
    (hget : ctxGetH B al.ctx ctx (fnv ctx) g.ctx = .ok (some cc, cs))
    (hchain : chainNew new cc bt (cs.modify cc fun e => { e with totalFreq := e.totalFreq + 1 }) =
      (bt', cs')) : btUpdate B al ctx b g =
      .ok { g with bt := bt', ctx := cs', bloom := bloomSet B ctx g.bloom } := by
  rw [btUpdate, if_neg hguard]
  dsimp only
  rw [hcount, ok_bind]
  dsimp only
  rw [hget, ok_bind]
  dsimp only
  rw [hchain]
  rfl

end Ways

theorem Represents.see (h : Represents B T g) (c : List UInt8) :
    PoolOf (T.see c) g.bt ∧ CtxPoolOf (T.see c) (nextOf g.bt) g.ctx :=
  ⟨⟨h.bt.indexed, h.bt.used, h.bt.same, h.bt.freq⟩, h.ctx.indexed, h.ctx.used, fun i c hi =>
    ⟨(h.ctx.entry i c hi).same, (h.ctx.entry i c hi).total, (h.ctx.entry i c hi).unique,
      (h.ctx.entry i c hi).chain⟩⟩

theorem Represents.bloom_snoc (h : Represents B T g) (ctx : List UInt8) :
    ∀ c ∈ T.seen ++ [ctx], BloomHas B (bloomSet B ctx g.bloom) c := by
  intro c hc
  rcases List.mem_append.1 hc with hc | hc
  · exact bloomSet_keeps (h.bloom c hc) ctx
  · rw [List.mem_singleton.1 hc]
    exact bloomSet_has ctx

theorem Represents.short_snoc (h : Represents B T g) (hpos : 0 < ctx.length)
    (hlen : ctx.length ≤ btMaxDepth) :
    ∀ c ∈ T.seen ++ [ctx], 0 < c.length ∧ c.length ≤ btMaxDepth := by
  intro c hc
  rcases List.mem_append.1 hc with hc | hc
  · exact h.short c hc
  · exact List.mem_singleton.1 hc ▸ ⟨hpos, hlen⟩

theorem Represents.counted (h : Represents B T g) (hlen : ctx.length ≤ btMaxDepth)
    (hcap : 0 < g.bt.cap) (hroom : (ctx, b) ∈ T.pairs ∨ g.bt.used < g.bt.reach)
    (hint : T.pairs.length ≤ 2 ^ 31) (al : Growth) :
    ∃ bt', btCount B al ctx (fnv ctx) b g.bt =
        .ok (((T.see ctx).recordPair (g.bt.hasRoom B.dynamic al) (ctx, b)).1, bt') ∧
      PoolOf ((T.see ctx).recordPair (g.bt.hasRoom B.dynamic al) (ctx, b)).2 bt' ∧
      CtxPoolOf ((T.see ctx).recordPair (g.bt.hasRoom B.dynamic al) (ctx, b)).2 (nextOf bt')
        g.ctx ∧
      (bt'.cap, bt'.nslots) =
        if (ctx, b) ∈ T.pairs then (g.bt.cap, g.bt.nslots) else g.bt.placedSizes B.dynamic al := by
  obtain ⟨hP, hC⟩ := h.see ctx
  obtain ⟨bt', hcount, hP', hnext, hsizes⟩ := hP.btCount_spec (B := B) h.sound.pairs_nodup hlen
    hcap al hroom hint
  -- the links of the chains are older than the new entry
  have hlinks : ∀ c, ∀ j ∈ T.chain c, nextOf bt' j = nextOf g.bt j := by
    intro c j hj
    obtain ⟨b', hb', -⟩ := h.sound.chain_pairs c j hj
    obtain ⟨hlt, -⟩ := List.getElem?_eq_some_iff.1 hb'
    exact hnext j (h.bt.used ▸ hlt)
  exact ⟨bt', hcount, hP', (hC.relink hlinks).recordPair _ _, hsizes⟩

theorem CtxPoolOf.found {next : Nat → Option Nat} {room : Bool} {new : Option Nat}
    (h : CtxPoolOf ((T.see ctx).recordPair room (ctx, b)).2 next cs)
    (hsound : T.Sound fun _ => 0)
    (hrec : ((T.see ctx).recordPair room (ctx, b)).1 = some new) (hlen : ctx.length ≤ btMaxDepth)
    (hcap : 0 < cs.cap) (hroom : ctx ∈ T.ctxs ∨ cs.used < cs.reach)
    (hint : ((T.see ctx).recordPair room (ctx, b)).2.pairs.length ≤ 2 ^ 31) (al : Growth) :
    ∃ o cs', ctxGetH B al ctx (fnv ctx) cs = .ok (o, cs') ∧
      CtxPoolOf (((T.see ctx).recordPair room (ctx, b)).2.recordCtx (cs.hasRoom B.dynamic al)
        ctx).2 next cs' ∧
      o.isSome = (((T.see ctx).recordPair room (ctx, b)).2.recordCtx (cs.hasRoom B.dynamic al)
        ctx).1 ∧
      (∀ i, o = some i → (((T.see ctx).recordPair room (ctx, b)).2.recordCtx
        (cs.hasRoom B.dynamic al) ctx).2.ctxs[i]? = some ctx) ∧
      (cs'.cap, cs'.nslots) =
        if ctx ∈ T.ctxs then (cs.cap, cs.nslots) else cs.placedSizes B.dynamic al := by
  obtain ⟨hsound', hmem, -⟩ := hsound.recordPair hrec
  obtain ⟨hctxs, htotal, hchain, -⟩ := Tally.recordPair_ctxs room (ctx, b) (T.see ctx)
  change _ = T.ctxs at hctxs
  have hle : cs.used ≤ 2 ^ 31 := by
    rw [h.used]
    exact hsound'.ctxs_length_le.trans hint
  have hlt : ctx ∉ T.ctxs → cs.used < 2 ^ 31 := by
    intro hnew
    have hadd := (hsound'.addCtx (hctxs.symm ▸ hnew) ⟨b, hmem⟩).ctxs_length_le
    change (_ ++ [ctx]).length ≤ _ at hadd
    rw [List.length_append, List.length_singleton, ← h.used] at hadd
    change cs.used + 1 ≤ _ at hadd
    exact Nat.lt_of_succ_le (hadd.trans hint)
  have hspec := h.ctxGetH_spec (B := B) hlen
    (fun hn => by rw [htotal]; exact hsound.total_ctxs ctx (hctxs ▸ hn))
    (fun hn => by
      rw [hchain]
      by_contra hne
      exact hn (hctxs.symm ▸ hsound.chain_ctxs ctx hne))
    hcap al (hctxs.symm ▸ hroom) (hctxs.symm ▸ hlt) hle
  rwa [hctxs] at hspec

theorem btUpdate_spec (h : Represents B T g) (hpos : 0 < ctx.length)
    (hlen : ctx.length ≤ btMaxDepth) (hbtCap : 0 < g.bt.cap) (hctxCap : 0 < g.ctx.cap)
    (hbt : (ctx, b) ∈ T.pairs ∨ g.bt.used < g.bt.reach)
    (hctx : ((T.see ctx).recordPair (g.bt.hasRoom B.dynamic al.bt) (ctx, b)).1 = none ∨
      ctx ∈ T.ctxs ∨ g.ctx.used < g.ctx.reach)
    (hint : (T.updateIn B al g (ctx, b)).pairs.length ≤ 2 ^ 31) :
    ∃ g', btUpdate B al ctx b g = .ok g' ∧ Updated B al T (ctx, b) g g' := by
  obtain ⟨hpairs, hseen⟩ := Tally.update_pairs (g.bt.hasRoom B.dynamic al.bt)
    (g.ctx.hasRoom B.dynamic al.ctx) (ctx, b) T
  have hsound := h.sound.update (g.bt.hasRoom B.dynamic al.bt) (g.ctx.hasRoom B.dynamic al.ctx)
    (ctx, b)
  rw [Counts.updateIn, hpairs] at hint
  have hshort := h.short_snoc hpos hlen
  have hbloom := h.bloom_snoc ctx
  have hguard : ¬ (ctx.length = 0 ∨ btMaxDepth < ctx.length) :=
    not_or.2 ⟨hpos.ne', not_lt.2 hlen⟩
  obtain ⟨bt', hcount, hP, hC, hsizes⟩ := h.counted hlen hbtCap hbt
    ((Tally.recordPair_length_le _ _ (T.see ctx)).trans hint) al.bt
  cases hrec : ((T.see ctx).recordPair (g.bt.hasRoom B.dynamic al.bt) (ctx, b)).1 with
  | none =>
    rw [hrec] at hcount
    rw [Tally.recordPair_none hrec] at hP hC
    refine ⟨_, btUpdate_dropped hguard hcount, ?_, rfl, rfl, hsizes, (if_pos (.inl hrec)).symm⟩
    rw [Counts.updateIn, Tally.update_of_none hrec]
    exact ⟨h.sound.see_settled ctx, hshort, hP, hC, hbloom⟩
  | some new =>
    have hsome : ((T.see ctx).recordPair (g.bt.hasRoom B.dynamic al.bt) (ctx, b)).1 ≠ none := by
      rw [hrec]
      exact Option.some_ne_none new
    rw [hrec] at hcount
    obtain ⟨o, cs', hget, hC', hplaced, hplace, hctxSizes⟩ := hC.found (B := B) h.sound hrec hlen
      hctxCap (hctx.resolve_left hsome) hint al.ctx
    have hctxSizes : (cs'.cap, cs'.nslots) =
        if ((T.see ctx).recordPair (g.bt.hasRoom B.dynamic al.bt) (ctx, b)).1 = none ∨
          ctx ∈ T.ctxs then (g.ctx.cap, g.ctx.nslots)
        else g.ctx.placedSizes B.dynamic al.ctx := by
      simp only [hsome, false_or]
      exact hctxSizes
    have hfollow : T.updateIn B al g (ctx, b) =
        ((T.see ctx).recordPair (g.bt.hasRoom B.dynamic al.bt) (ctx, b)).2.follow
          (g.ctx.hasRoom B.dynamic al.ctx) new ctx := Tally.update_of_some hrec
    rw [Tally.update_of_some hrec] at hsound hseen
    have hP' := hP.recordCtx (g.ctx.hasRoom B.dynamic al.ctx) ctx
    cases o with
    | none =>
      rw [Tally.follow_of_false hplaced.symm] at hsound hseen hfollow
      refine ⟨_, btUpdate_unplaced hguard hcount hget, ?_, rfl, rfl, hsizes, hctxSizes⟩
      rw [hfollow]
      exact ⟨hsound, hseen ▸ hshort, hP', hC', hseen ▸ hbloom⟩
    | some cc =>
      rw [Tally.follow_of_true hplaced.symm] at hsound hseen hfollow
      obtain ⟨-, -, hchain⟩ := Tally.recordCtx_pairs (g.ctx.hasRoom B.dynamic al.ctx) ctx
        ((T.see ctx).recordPair (g.bt.hasRoom B.dynamic al.bt) (ctx, b)).2
      have hfree : ∀ j, new = some j → j < 2 ^ 31 ∧ ∀ c, j ∉
          ((T.see ctx).recordPair (g.bt.hasRoom B.dynamic al.bt) (ctx, b)).2.chain c := by
        intro j hj
        obtain ⟨hpair, -, hfree⟩ := (h.sound.recordPair hrec).2.2 j hj
        obtain ⟨hlt, -⟩ := List.getElem?_eq_some_iff.1 hpair
        exact ⟨hlt.trans_le hint, hfree⟩
      obtain ⟨bt'', cs'', hchainNew, hP'', hC'', hb, hc⟩ := chainNew_spec hP' hC'
        hsound.ctxs_nodup (hplace cc rfl) (hchain.symm ▸ hfree)
      refine ⟨_, btUpdate_placed hguard hcount hget hchainNew, ?_, rfl, rfl, hb.trans hsizes,
        hc.trans hctxSizes⟩
      rw [hfollow]
      exact ⟨hsound, hseen ▸ hshort, hP'', hC'', hseen ▸ hbloom⟩

end Update

end Bcb.Bt
