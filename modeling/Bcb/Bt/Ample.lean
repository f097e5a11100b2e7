import Bcb.Bt.Recall
import Bcb.Bt.Safety
import Bcb.Bt.Steering
import Bcb.Bt.Overfull

/-! The tables of trained models: `bt_v3_distribution_r` returns one for every window where
the context table keeps a free slot, and only there. -/

namespace Bcb.Bt

open Lib RangeCoder

variable {B : Build} {T : Counts} {g : Globals} {w : Window} {n : Nat} {s : List UInt8}

theorem actFreq_le {chain : List BtEntry} {m : Nat} (h : ∀ e ∈ chain, e.freq.toNat ≤ m)
    (b : UInt8) : (actFreq chain b).toNat ≤ m := by
  have hacc : ∀ f : UInt8 → UInt32, (f b).toNat ≤ m →
      ((chain.foldl (fun f e => Function.update f e.nextByte e.freq) f) b).toNat ≤ m := by
    induction chain with
    | nil => exact fun f hf => hf
    | cons e chain ih =>
      intro f hf
      apply ih fun x hx => h x (List.mem_cons_of_mem e hx)
      dsimp only
      rw [Function.update_apply]
      split_ifs
      · exact h e List.mem_cons_self
      · exact hf
  exact hacc _ (Nat.zero_le m)

/-- A context that is found, and counts none of which is above the total. -/
def CountsUpTo (m : Nat) : Option (CtxEntry × List BtEntry) → Prop
  | none => True
  | some (cc, chain) => cc.totalFreq.toNat ≤ m ∧ ∀ e ∈ chain, e.freq.toNat ≤ cc.totalFreq.toNat

theorem Represents.activeAt_counts (h : Represents B T g) (hle : T.pairs.length ≤ 2 ^ 31)
    (hroom : g.ctx.used < g.ctx.nslots) {m : Nat} (hm : m < 2 ^ 32)
    (htotal : ∀ c, T.total c ≤ m) (w : Window) (n : Nat) :
    ∃ o, activeAt B (g.reader B w) n = .ok o ∧ CountsUpTo m o := by
  have hused : g.ctx.used ≤ 2 ^ 31 := h.ctx.used ▸ h.sound.ctxs_length_le.trans hle
  by_cases hmem : w.last n ∈ T.ctxs
  · obtain ⟨i, hi⟩ := List.mem_iff_getElem?.1 hmem
    refine ⟨_, h.activeAt_found hle hi, ?_⟩
    split_ifs
    · trivial
    · have hword : ∀ {k}, k ≤ m → (UInt32.ofNat k).toNat = k := fun hk =>
        UInt32.toNat_ofNat_of_lt' (hk.trans_lt hm)
      refine ⟨?_, ?_⟩
      · rw [(h.ctx.entry i _ hi).total, hword (htotal _)]
        exact htotal _
      · intro e he
        obtain ⟨j, hj, rfl⟩ := List.mem_map.1 he
        obtain ⟨b, hb, -, hfreq⟩ := h.sound.chain_pairs _ j hj
        rw [h.bt.freq j _ hb, (h.ctx.entry i _ hi).total, hword (htotal _),
          hword (hfreq.trans (htotal _))]
        exact hfreq
  · have hreach : g.ctx.used < g.ctx.reach :=
      Nat.lt_min.2 ⟨hroom, hused.trans_lt (by norm_num)⟩
    exact ⟨none, h.activeAt_absent hreach hused hmem, trivial⟩

theorem levelSafe_of_counts {r : BtV3Reader} {m : Nat} (hm : m + 256 < 2 ^ 32)
    (h : ∀ n, ∃ o, activeAt B r n = .ok o ∧ CountsUpTo m o) {lv : BtLevel} (hlv : lv ∈ levels) :
    LevelSafe B r lv := by
  refine CountsFit.countsOk (countsFit_of_freq_le (levelOf_levelActives hlv) ?_)
    (levelOf_levelActives hlv)
  intro x hx
  obtain ⟨n, -, hx⟩ := List.mem_filterMap.1 hx
  obtain ⟨-, hactive⟩ := activeOf_some hx
  obtain ⟨o, ho, hcounts⟩ := h n
  rw [hactive] at ho
  obtain rfl := Except.ok.inj ho
  exact ⟨(Nat.add_le_add_right hcounts.1 256).trans_lt hm, actFreq_le hcounts.2⟩

/-- In a full table some context that passes the filter is not to be found. -/
theorem Represents.exists_lost (h : Represents B T g) (hle : T.pairs.length ≤ 2 ^ 31)
    (hfull : g.ctx.nslots ≤ g.ctx.used) : ∃ w : Window, w.bytes.length = btMaxDepth ∧
      activeAt B (g.reader B w) btMaxDepth = .error .diverge := by
  have hused : g.ctx.used ≤ 2 ^ 31 := h.ctx.used ▸ h.sound.ctxs_length_le.trans hle
  obtain ⟨k, hk⟩ := h.ctx.indexed.size
  have hpos : 0 < T.ctxs.length := by
    rw [← h.ctx.used]
    exact (hk ▸ Nat.two_pow_pos k).trans_le hfull
  obtain ⟨c₀, hc₀⟩ := List.exists_mem_of_length_pos hpos
  obtain ⟨b, hb⟩ := h.sound.ctxs_pairs c₀ hc₀
  obtain ⟨c, hlen, hc, hhash⟩ :=
    exists_fresh (h.sound.ctxs_length_le.trans hle) (fnv c₀).toNat
  refine ⟨⟨c, hlen.le⟩, hlen, ?_⟩
  have hlast : Window.last ⟨c, hlen.le⟩ btMaxDepth = c := by
    change c.drop (c.length - btMaxDepth) = c
    rw [hlen, Nat.sub_self, List.drop_zero]
  apply h.activeAt_lost ((g.ctx.reach_le).trans hfull) hused
  · rwa [hlast]
  · rw [hlast]
    exact BloomHas.congr hhash (h.bloom c₀ (h.sound.pairs_seen _ hb))

theorem mem_scanOrder_depth :
    ∃ lv ∈ levels, btMaxDepth ∈ scanOrder lv.dmin (min btMaxDepth lv.dmax) :=
  ⟨⟨17, 24, 282⟩, by simp [levels], by decide⟩

theorem After.totals (h : After B s g) :
    ∃ T, Represents B T g ∧ ∀ c, T.total c ≤ s.length := by
  obtain ⟨T, hT, hseen⟩ := h.trained.represents
  refine ⟨T, hT, fun c => ?_⟩
  by_cases hc : c ∈ T.ctxs
  · obtain ⟨b, hb⟩ := hT.sound.ctxs_pairs c hc
    obtain ⟨hpos, hlen⟩ := hT.short c (hT.sound.pairs_seen _ hb)
    have hocc := Ngram.count_log_fst (List.ne_nil_of_length_pos hpos) hlen s
    rw [← hseen] at hocc
    refine (hT.sound.total_le c).trans
      (le_trans (le_of_eq ?_) (hocc.trans_le (Ngram.occurrences_le s c)))
    congr
    exact lawful_beq_subsingleton _ _
  · rw [hT.sound.total_ctxs c hc]
    exact Nat.zero_le _

theorem Represents.exists_no_table (h : Represents B T g) (hle : T.pairs.length ≤ 2 ^ 31)
    (hfull : g.ctx.nslots ≤ g.ctx.used) :
    ∃ w : Window, activeAt B (g.reader B w) btMaxDepth = .error .diverge ∧
      ∀ cum, btV3DistributionR B true (g.reader B w) rcScale ≠ .ok cum := by
  obtain ⟨w, hw, hlost⟩ := h.exists_lost hle hfull
  refine ⟨w, hlost, fun cum hcum => ?_⟩
  obtain ⟨lv, hlv, hn⟩ := mem_scanOrder_depth
  rw [← hw] at hn
  obtain ⟨o, ho⟩ := activeAt_of_btV3DistributionR hcum hlv hn
  rw [hw, hlost] at ho
  cases ho

theorem Represents.ample (h : Represents B T g) (hle : T.pairs.length ≤ 2 ^ 31)
    (hroom : g.ctx.used < g.ctx.nslots) {m : Nat} (hm : m < 2 ^ 31) (htotal : ∀ c, T.total c ≤ m)
    (w : Window) :
    ∃ cum, btV3DistributionR B true (g.reader B w) rcScale = .ok cum ∧ Ample cum := by
  have hcounts := h.activeAt_counts hle hroom (hm.trans (by norm_num)) htotal w
  obtain ⟨cum, hcum⟩ := btV3DistributionR_ok (fun n => (hcounts n).imp fun _ h => h.1)
    fun lv hlv => levelSafe_of_counts (by omega) hcounts hlv
  exact ⟨cum, hcum, btV3DistributionR_ample hcum⟩

/-- After every training that returns, the table of every window is there and valid exactly
where the context table keeps a free slot. -/
theorem trained_ample_iff {al : Nat → Nat → UpdateAlloc} {pool : Nat → BtEntry}
    {ctxPool : Nat → CtxEntry} (hs : s.length < 2 ^ 31)
    (hrun : btV3TrainAll B al s (btV3Init B pool ctxPool) = .ok g) (hint : g.bt.used ≤ 2 ^ 31) :
    (∀ w : Window, ∃ cum, btV3DistributionR B true (g.reader B w) rcScale = .ok cum ∧ Ample cum) ↔
      g.ctx.used < g.ctx.nslots := by
  obtain ⟨T, hT, htotal⟩ := (trainAll_after hrun hint).totals
  have hle : T.pairs.length ≤ 2 ^ 31 := hT.bt.used ▸ hint
  constructor
  · intro h
    by_contra hfull
    obtain ⟨w, -, hno⟩ := hT.exists_no_table hle (not_lt.1 hfull)
    obtain ⟨cum, hcum, -⟩ := h w
    exact hno cum hcum
  · exact fun hroom w => hT.ample hle hroom hs htotal w

theorem trained_ample_iff_aba : ∃ g,
    btV3TrainAll .plain (fun _ _ => .succeeds) [97, 98, 97]
      (btV3Init .plain (fun _ => blankBt) fun _ => blankCtx) = .ok g ∧
    ((∀ w : Window, ∃ cum, btV3DistributionR .plain true (g.reader .plain w) rcScale = .ok cum ∧
      Ample cum) ↔ g.ctx.used < g.ctx.nslots) := by
  have hmap : (btV3TrainAll .plain (fun _ _ => .succeeds) [97, 98, 97]
      (btV3Init .plain (fun _ => blankBt) fun _ => blankCtx)).map (fun g => g.bt.used) = .ok 3 := by
    decide +kernel
  obtain ⟨g, hrun, hused⟩ := map_eq_ok.1 hmap
  exact ⟨g, hrun, trained_ample_iff (by decide) hrun (by omega)⟩

/-- A table that growths have left full: there is a window without a table. -/
theorem halfAlloc_no_table : ∃ g w,
    btV3TrainAll .plain (fun _ _ => halfAlloc) blocks
      (btV3Init .plain (fun _ => blankBt) fun _ => blankCtx) = .ok g ∧
    activeAt .plain (g.reader .plain w) btMaxDepth = .error .diverge ∧
    ∀ cum, btV3DistributionR .plain true (g.reader .plain w) rcScale ≠ .ok cum := by
  obtain ⟨g, T, -, hrun, hT, hpairs, hused, hnslots, -⟩ :=
    trainAll_blocks (fun _ => blankBt) fun _ => blankCtx
  obtain ⟨w, hw⟩ := hT.exists_no_table hpairs (hnslots.trans hused.symm).le
  exact ⟨g, w, hrun, hw⟩

end Bcb.Bt
