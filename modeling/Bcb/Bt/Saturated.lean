import Bcb.Bt.Recall
import Bcb.Bt.Usable
import Bcb.Lib.Bounded

namespace Bcb.Bt

open Lib

variable {B : Build} {T : Counts} {g : Globals} {ctx : List UInt8} {b : UInt8} {np nc : Nat}
  {us : List (List UInt8 × UInt8)}

/-- The entries of a context lie at the places `l`: the counts add up, and each has the context
and a byte of its own. -/
structure ContextOk (g : Globals) (i : Nat) (l : List Nat) : Prop where
  chain : Chain (nextOf g.bt) (link (g.ctx.pool i).firstEntry) l
  total : (g.ctx.pool i).totalFreq.toNat = (l.map fun j => (g.bt.pool j).freq.toNat).sum
  unique : (g.ctx.pool i).uniqueNext.toNat = l.length
  carried : ∃ c, ctxSame c (g.ctx.pool i) = true ∧ ∀ j ∈ l, j < g.bt.used ∧
    sameCtx (g.bt.pool j).ctx (g.bt.pool j).ctxLen c = true
  bytes : (l.map fun j => (g.bt.pool j).nextByte).Nodup

/-- The tables after the updates `us`. -/
structure Consistent (B : Build) (us : List (List UInt8 × UInt8)) (g : Globals) : Prop where
  contexts : ∃ chain : Nat → List Nat, (∀ i < g.ctx.used, ContextOk g i (chain i)) ∧
    ∀ i < g.ctx.used, ∀ i' < g.ctx.used, i ≠ i' → ∀ j ∈ chain i, j ∉ chain i'
  freq : ∀ j < g.bt.used, ∃ c, sameCtx (g.bt.pool j).ctx (g.bt.pool j).ctxLen c = true ∧
    (g.bt.pool j).freq.toNat = us.count (c, (g.bt.pool j).nextByte)
  btProbe : ∀ same key, ∃ hit, g.bt.search same key = .ok hit
  ctxProbe : ∀ same key, ∃ hit, g.ctx.search same key = .ok hit
  readProbe : ∀ w c ch, ∃ o, ctxFindRd (g.reader B w) c ch = .ok o

/-- Every training returns, with consistent tables at every point of the run: after any number
of bytes, and of updates of the next. -/
def ConsistentRuns (B : Build) (np nc : Nat) : Prop :=
  ∀ (pool : Nat → BtEntry) (ctxPool : Nat → CtxEntry) (al : Nat → Nat → UpdateAlloc)
    (s : List UInt8), s.length < 2 ^ 31 →
    ∃ g, btV3TrainAll B al s (btV3InitAt np nc pool ctxPool) = .ok g ∧
      ∀ b n, n ≤ g.window.bytes.length → ∃ g', updatesUpTo B (al s.length) b n g = .ok g' ∧
        Consistent B (Ngram.log btMaxDepth s ++ endsUpTo g.window b n) g'

/-- The tables of capacities `np` and `nc` after the updates `us`. -/
structure Saturated (B : Build) (np nc : Nat) (us : List (List UInt8 × UInt8)) (g : Globals) :
    Prop where
  represents : ∃ T, Represents B T g ∧ T.Within np nc us ∧ T.seen = us.map Prod.fst
  bt : Balanced g.bt
  btCap : g.bt.cap = np
  ctx : Balanced g.ctx
  ctxCap : g.ctx.cap = nc

theorem updateIn_fixed (hB : B.dynamic = false) (h : Represents B T g) (hbt : g.bt.cap = np)
    (hctx : g.ctx.cap = nc) (al : UpdateAlloc) (k : List UInt8 × UInt8) :
    T.updateIn B al g k = T.updateWithin np nc k := by
  rw [Counts.updateIn, hB, hasRoom_fixed, hasRoom_fixed, h.bt.used, h.ctx.used, hbt, hctx]
  rfl

theorem updateWithin_pairs_length_le (h : T.pairs.length ≤ np) (k : List UInt8 × UInt8) :
    (T.updateWithin np nc k).pairs.length ≤ np := by
  rw [Tally.updateWithin, (Tally.update_pairs _ _ _ _).1]
  unfold Tally.recordPair
  split_ifs with hmem hroom
  · exact h
  · change (T.pairs ++ [k]).length ≤ np
    rw [List.length_append]
    exact of_decide_eq_true hroom
  · exact h

theorem Within.pairs_length_le (h : T.Within np nc us) (hsound : T.Sound fun _ => 0) :
    T.pairs.length ≤ us.toFinset.card := by
  rw [← List.toFinset_card_of_nodup hsound.pairs_nodup]
  exact Finset.card_le_card fun k hk => List.mem_toFinset.2 (h.met k (List.mem_toFinset.1 hk))

theorem Saturated.update (h : Saturated B np nc us g) (hB : B.dynamic = false)
    (hint : min np (us ++ [(ctx, b)]).toFinset.card ≤ 2 ^ 31) (hpos : 0 < ctx.length)
    (hlen : ctx.length ≤ btMaxDepth) (al : UpdateAlloc) : ∃ g', btUpdate B al ctx b g = .ok g' ∧
      Saturated B np nc (us ++ [(ctx, b)]) g' ∧ g'.window = g.window ∧ g'.frozen = g.frozen := by
  obtain ⟨T, hT, hwithin, hseen⟩ := h.represents
  have hle : T.pairs.length ≤ np := hT.bt.used ▸ h.btCap ▸ hT.bt.indexed.used_le
  have hupd := updateIn_fixed hB hT h.btCap h.ctxCap al (ctx, b)
  have hint : (T.updateIn B al g (ctx, b)).pairs.length ≤ 2 ^ 31 := by
    rw [hupd]
    exact (le_min (updateWithin_pairs_length_le hle _)
      (Within.pairs_length_le (hwithin.update hT.sound _) (hT.sound.update _ _ _))).trans hint
  have hold : T.pairs.length ≤ 2 ^ 31 := by
    rw [Counts.updateIn, (Tally.update_pairs _ _ _ _).1] at hint
    exact (Tally.recordPair_length_le _ _ (T.see ctx)).trans hint
  have hpairs : g.bt.used ≤ 2 ^ 31 := hT.bt.used.trans_le hold
  have hctxs : g.ctx.used ≤ 2 ^ 31 := hT.ctx.used ▸ hT.sound.ctxs_length_le.trans hold
  obtain ⟨g', hrun, hg'⟩ := btUpdate_spec hT hpos hlen h.bt.cap_pos h.ctx.cap_pos
    (.inr (h.bt.used_lt_reach hT.bt.indexed.used_le (hpairs.trans_lt (by norm_num))))
    (.inr (.inr (h.ctx.used_lt_reach hT.ctx.indexed.used_le (hctxs.trans_lt (by norm_num))))) hint
  obtain ⟨hbtSizes, hctxSizes⟩ := hg'.fixed hB
  obtain ⟨hbtCap, hbtSlots⟩ := Prod.mk.inj hbtSizes
  obtain ⟨hctxCap, hctxSlots⟩ := Prod.mk.inj hctxSizes
  refine ⟨g', hrun, ⟨⟨_, hupd ▸ hg'.represents, hwithin.update hT.sound _, ?_⟩,
    ⟨hbtCap ▸ h.bt.cap_pos, ?_⟩, hbtCap.trans h.btCap, ⟨hctxCap ▸ h.ctx.cap_pos, ?_⟩,
    hctxCap.trans h.ctxCap⟩, hg'.window, hg'.frozen⟩
  · rw [Tally.updateWithin, (Tally.update_pairs _ _ _ _).2, hseen, List.map_append]
    rfl
  · rw [hbtCap, hbtSlots]
    exact h.bt.nslots
  · rw [hctxCap, hctxSlots]
    exact h.ctx.nslots

theorem Saturated.push (h : Saturated B np nc us g) (w : Window) :
    Saturated B np nc us { g with window := w } := by
  obtain ⟨T, hT, hrest⟩ := h.represents
  exact ⟨⟨T, ⟨hT.sound, hT.short, hT.bt, hT.ctx, hT.bloom⟩, hrest⟩, h.bt, h.btCap, h.ctx, h.ctxCap⟩

theorem initAt_represents (B : Build) (hnp : ∃ k, np = 2 ^ k) (hnc : ∃ k, nc = 2 ^ k)
    (pool : Nat → BtEntry) (ctxPool : Nat → CtxEntry) :
    Represents B Tally.empty (btV3InitAt np nc pool ctxPool) where
  sound := Tally.empty_sound
  short _ h := absurd h List.not_mem_nil
  bt := by
    obtain ⟨k, rfl⟩ := hnp
    exact ⟨.empty _ _ _ ⟨k + 1, rfl⟩, rfl, (fun _ _ h => by cases h), fun _ _ h => by cases h⟩
  ctx := by
    obtain ⟨k, rfl⟩ := hnc
    exact ⟨.empty _ _ _ ⟨k + 1, rfl⟩, rfl, fun _ _ h => by cases h⟩
  bloom _ h := absurd h List.not_mem_nil

theorem initAt_saturated (B : Build) (hnp : ∃ k, np = 2 ^ k) (hnc : ∃ k, nc = 2 ^ k)
    (pool : Nat → BtEntry) (ctxPool : Nat → CtxEntry) :
    Saturated B np nc [] (btV3InitAt np nc pool ctxPool) := by
  refine ⟨⟨Tally.empty, initAt_represents B hnp hnc pool ctxPool, .empty np nc, rfl⟩, ?_, rfl, ?_,
    rfl⟩
  · obtain ⟨k, rfl⟩ := hnp
    exact ⟨Nat.two_pow_pos k, rfl⟩
  · obtain ⟨k, rfl⟩ := hnc
    exact ⟨Nat.two_pow_pos k, rfl⟩

/-! ## What the tally says about the tables -/

theorem count_beq {α : Type} {i j : BEq α} [@LawfulBEq α i] [@LawfulBEq α j] (x : α)
    (l : List α) : @List.count α i x l = @List.count α j x l := by
  obtain rfl := lawful_beq_subsingleton i j
  rfl

section Counts

variable (h : Saturated B np nc us g) (hnp : np ≤ 2 ^ 31)

include h hnp

theorem Saturated.searches : (∀ same key, ∃ hit, g.bt.search same key = .ok hit) ∧
    ∀ same key, ∃ hit, g.ctx.search same key = .ok hit := by
  obtain ⟨T, hT, -⟩ := h.represents
  have hle : g.bt.used ≤ 2 ^ 31 := hT.bt.indexed.used_le.trans (h.btCap.trans_le hnp)
  have hctxs : g.ctx.used ≤ 2 ^ 31 :=
    hT.ctx.used ▸ hT.sound.ctxs_length_le.trans (hT.bt.used ▸ hle)
  have hbt := h.bt.used_lt_reach hT.bt.indexed.used_le (hle.trans_lt (by norm_num))
  have hctx := h.ctx.used_lt_reach hT.ctx.indexed.used_le (hctxs.trans_lt (by norm_num))
  exact ⟨search_total hT.bt.indexed (g.bt.named_le.trans_lt hbt),
    search_total hT.ctx.indexed (g.ctx.named_le.trans_lt hctx)⟩

theorem Saturated.consistent (hcount : ∀ c, (us.map Prod.fst).count c < 2 ^ 32) :
    Consistent B us g := by
  obtain ⟨hbtProbe, hctxProbe⟩ := h.searches hnp
  obtain ⟨T, hT, hwithin, hseen⟩ := h.represents
  have hword : ∀ {m : Nat}, m < 2 ^ 32 → (UInt32.ofNat m).toNat = m := fun hm =>
    UInt32.toNat_ofNat_of_lt' hm
  have hpair : ∀ {j c x}, T.pairs[j]? = some (c, x) → (g.bt.pool j).freq.toNat = us.count (c, x) ∧
      T.freqAt j = us.count (c, x) := by
    intro j c x hj
    have hfreq : T.freq (c, x) = us.count (c, x) :=
      (hwithin.counted _ (List.mem_of_getElem? hj)).trans (count_beq _ _)
    have hlt : us.count (c, x) < 2 ^ 32 :=
      (List.count_le_count_map (f := Prod.fst)).trans_lt (hcount c)
    refine ⟨?_, ?_⟩
    · rw [hT.bt.freq j _ hj, hfreq, hword hlt]
    · rw [Tally.freqAt, hj]
      exact hfreq
  have hpairs : T.pairs.length ≤ 2 ^ 31 :=
    hT.bt.used ▸ hT.bt.indexed.used_le.trans (h.btCap.trans_le hnp)
  refine ⟨⟨fun i => T.chain (T.ctxs.getD i []), ?_, ?_⟩, ?_, hbtProbe, hctxProbe, ?_⟩
  · intro i hi
    have hentry := hT.ctx.entry i _ (hT.ctxAt hi)
    have hplace : ∀ j ∈ T.chain (T.ctxs.getD i []), ∃ x,
        T.pairs[j]? = some (T.ctxs.getD i [], x) ∧ (g.bt.pool j).nextByte = x := by
      intro j hj
      obtain ⟨x, hx, -⟩ := hT.sound.chain_pairs _ j hj
      exact ⟨x, hx, (btSame_iff.1 (hT.bt.same j _ hx)).1⟩
    refine ⟨hentry.chain, ?_, ?_, ⟨_, hentry.same, ?_⟩, ?_⟩
    · have hle := hT.sound.total_le (T.ctxs.getD i [])
      rw [hseen] at hle
      have hlt : T.total (T.ctxs.getD i []) < 2 ^ 32 :=
        (hle.trans_eq (count_beq _ _)).trans_lt (hcount _)
      rw [hentry.total, hword hlt, hwithin.total]
      congr 1
      apply List.map_congr_left
      intro j hj
      obtain ⟨x, hx, -⟩ := hplace j hj
      rw [(hpair hx).1, (hpair hx).2]
    · have hlen : (T.chain (T.ctxs.getD i [])).length ≤ T.pairs.length := by
        have hsub : T.chain (T.ctxs.getD i []) ⊆ List.range T.pairs.length := by
          intro j hj
          obtain ⟨x, hx, -⟩ := hplace j hj
          exact List.mem_range.2 (List.getElem?_eq_some_iff.1 hx).1
        have hle := ((hT.sound.chain_nodup _).subperm hsub).length_le
        rwa [List.length_range] at hle
      rw [hentry.unique, hword (by omega)]
    · intro j hj
      obtain ⟨x, hx, -⟩ := hplace j hj
      exact ⟨hT.bt.used ▸ (List.getElem?_eq_some_iff.1 hx).1,
        (btSame_iff.1 (hT.bt.same j _ hx)).2⟩
    · exact hT.chain_bytes_nodup _
  · exact fun i hi i' hi' hne j hj => hT.chains_disjoint hi hi' hne hj
  · intro j hj
    rw [hT.bt.used] at hj
    obtain ⟨hbyte, hsame⟩ := btSame_iff.1 (hT.bt.same j _ (List.getElem?_eq_getElem hj))
    exact ⟨_, hsame, hbyte.symm ▸ (hpair (List.getElem?_eq_getElem hj)).1⟩
  · intro w c ch
    obtain ⟨hit, hsearch⟩ := hctxProbe (ctxSame c) ch
    rw [ctxFindRd_reader hT.ctx.indexed.toSized, hsearch]
    exact ⟨_, rfl⟩

end Counts

theorem count_log_lt {s : List UInt8} (hs : s.length < 2 ^ 31) {w : Window}
    (hw : w.bytes = Ngram.tail btMaxDepth s) {n : Nat} (hn : n ≤ w.bytes.length) (b : UInt8)
    (c : List UInt8) :
    ((Ngram.log btMaxDepth s ++ endsUpTo w b n).map Prod.fst).count c < 2 ^ 32 := by
  have hbegins : (Ngram.log btMaxDepth s ++ endsUpTo w b n).map Prod.fst <+:
      (Ngram.log btMaxDepth (s ++ [b])).map Prod.fst := by
    rw [Ngram.log_concat, ← hw]
    exact ((List.prefix_append_right_inj _).2 (endsUpTo_begins hn b)).map _
  by_cases hmem : c ∈ (Ngram.log btMaxDepth (s ++ [b])).map Prod.fst
  · obtain ⟨u, hu, rfl⟩ := List.mem_map.1 hmem
    obtain ⟨h0, hlen⟩ := Ngram.mem_log hu
    have hle := hbegins.sublist.count_le u.1
    rw [Ngram.count_log_fst h0 hlen] at hle
    have hocc := Ngram.occurrences_le (s ++ [b]) u.1
    rw [List.length_append, List.length_singleton] at hocc
    omega
  · rw [List.count_eq_zero.2 fun hc => hmem (hbegins.subset hc)]
    norm_num

/-- In a build that does not grow, with at most `2^31` entries, the tables are consistent at every
point of every training run. -/
theorem consistentRuns_fixed (hB : B.dynamic = false) {i : Nat} (hi : i ≤ 31) (j : Nat) :
    ConsistentRuns B (2 ^ i) (2 ^ j) := by
  intro pool ctxPool al s hs
  have hnp : 2 ^ i ≤ 2 ^ 31 := Nat.pow_le_pow_right (by norm_num) hi
  have hpush : ∀ us (g : Globals) (w : Window), Saturated B (2 ^ i) (2 ^ j) us g →
      Saturated B (2 ^ i) (2 ^ j) us { g with window := w } := fun us g w h => h.push w
  obtain ⟨g, hrun, hg, hwindow, -⟩ := trainFrom_ok (B := B) (s := s) al
    (initAt_saturated B ⟨i, rfl⟩ ⟨j, rfl⟩ pool ctxPool) rfl rfl hpush
    fun pre k post _ hpos hlen i n g h => h.update hB ((min_le_left _ _).trans hnp) hpos hlen _
  refine ⟨g, hrun, fun b n hn => ?_⟩
  obtain ⟨g', hrun', hg', -⟩ := updatesUpTo_ok (B := B) (b := b) (al s.length) hn hg
    fun ns m ns' _ hpos hlen g1 h1 => h1.update hB ((min_le_left _ _).trans hnp) hpos hlen _
  exact ⟨g', hrun', hg'.consistent hnp (count_log_lt hs hwindow hn b)⟩

theorem consistentRuns_fixed_one : ConsistentRuns ⟨.fixed 4, true, false, true⟩ (2 ^ 4) (2 ^ 3) :=
  consistentRuns_fixed rfl (by norm_num) 3

end Bcb.Bt
