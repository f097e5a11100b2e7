import Bcb.Bt.Exact
import Bcb.Bt.Plain
import Bcb.V0.Represents

namespace Bcb.V0

open Lib Bt

/-- What a context met `total` times, and a byte met `freq` times after it, are in 32 bits.  A
context without a count is not known. -/
def lookup (total freq : Nat) : Option (UInt32 × UInt32) :=
  if UInt32.ofNat total = 0 then none else some (UInt32.ofNat total, UInt32.ofNat freq)

variable {us : List (List UInt8 × UInt8)}

theorem Represents.predictCounts_eq {g : Globals} (h : Represents (Tally.all us) g) (w : Window)
    (n : Nat) (b : UInt8) : predictCounts { g with window := w } n b =
      .ok (lookup ((Tally.all us).total (w.last n)) ((Tally.all us).freq (w.last n, b))) := by
  have hexact := Tally.all_exact us
  unfold predictCounts lookup
  dsimp only
  by_cases hmem : w.last n ∈ (Tally.all us).ctxs
  · obtain ⟨i, hi⟩ := List.mem_iff_getElem?.1 hmem
    obtain ⟨b', hb'⟩ := h.sound.ctxs_pairs _ hmem
    have hbloom := bloomChk_of_has (h.bloom _ (h.sound.pairs_seen _ hb'))
    rw [hbloom, Bool.not_true, if_neg Bool.false_ne_true,
      h.ctx.ctxFindH_some h.sound.ctxs_nodup hi, ok_bind]
    dsimp only
    rw [h.ctx.stores.read hi, ok_bind, h.ctx.total i _ hi]
    split_ifs with hzero
    · rfl
    · by_cases hpair : (w.last n, b) ∈ (Tally.all us).pairs
      · obtain ⟨j, hj⟩ := List.mem_iff_getElem?.1 hpair
        rw [h.table.find_some h.sound.pairs_nodup hj, ok_bind]
        dsimp only
        rw [h.table.stores.read hj, ok_bind, h.table.freq j _ hj]
        rfl
      · have hus : (w.last n, b) ∉ us := fun hus => hpair ((hexact.mem_pairs _).2 hus)
        rw [h.table.find_none hpair, hexact.freq_eq_zero hus]
        rfl
  · rw [h.ctx.ctxFindH_none hmem, h.sound.total_ctxs _ hmem]
    cases bloomChk g.bloom (w.last n) <;> rfl

theorem actFreq_eq {B : Build} {g : Bt.Globals} (h : Bt.Represents B (Tally.all us) g)
    (c : List UInt8) (b : UInt8) : actFreq (((Tally.all us).chain c).map g.bt.pool) b =
      UInt32.ofNat ((Tally.all us).freq (c, b)) := by
  have hexact := Tally.all_exact us
  by_cases hmem : (c, b) ∈ us
  · obtain ⟨j, hj, hpair⟩ := hexact.chained _ hmem
    have hbyte : (g.bt.pool j).nextByte = b := (Bt.btSame_iff.1 (h.bt.same _ _ hpair)).1
    have hnodup : ((((Tally.all us).chain c).map g.bt.pool).map Bt.BtEntry.nextByte).Nodup := by
      rw [List.map_map]
      exact h.chain_bytes_nodup c
    rw [← h.bt.freq j _ hpair, ← actFreq_of_mem hnodup (List.mem_map_of_mem hj), hbyte]
  · rw [hexact.freq_eq_zero hmem]
    apply actFreq_eq_zero
    intro e he heq
    obtain ⟨j, hj, rfl⟩ := List.mem_map.1 he
    obtain ⟨x, hx, -⟩ := h.sound.chain_pairs c j hj
    rw [(Bt.btSame_iff.1 (h.bt.same _ _ hx)).1] at heq
    exact hmem ((hexact.mem_pairs _).1 (heq ▸ List.mem_of_getElem? hx))

theorem Counted.activeAt_eq {B : Build} {g : Bt.Globals} (h : Counted B us g)
    (hint : us.toFinset.card ≤ 2 ^ 31) (w : Window) (n : Nat) (b : UInt8) :
    (activeAt B (g.reader B w) n).map (Option.map fun x => (x.1.totalFreq, actFreq x.2 b)) =
      .ok (lookup ((Tally.all us).total (w.last n)) ((Tally.all us).freq (w.last n, b))) := by
  have hpairs : (Tally.all us).pairs.length ≤ 2 ^ 31 := (Tally.all_pairs_length us).trans_le hint
  unfold lookup
  by_cases hmem : w.last n ∈ (Tally.all us).ctxs
  · obtain ⟨i, hi⟩ := List.mem_iff_getElem?.1 hmem
    have htotal := (h.represents.ctx.entry i _ hi).total
    rw [h.represents.activeAt_found hpairs hi, htotal]
    split_ifs with hzero
    · rfl
    · change Except.ok (some ((g.ctx.pool i).totalFreq, actFreq _ b)) = _
      rw [htotal, actFreq_eq h.represents]
  · have hused : g.ctx.used ≤ 2 ^ 31 :=
      h.represents.ctx.used ▸ h.represents.sound.ctxs_length_le.trans hpairs
    have hroom := h.ctx.used_lt_reach h.represents.ctx.indexed.used_le
      (hused.trans_lt (by decide : 2 ^ 31 < 2 ^ 32))
    rw [h.represents.activeAt_absent hroom hused hmem, h.represents.sound.total_ctxs _ hmem]
    rfl

/-- After a training sequence for which the pools of `bt_model.c` are large enough, and in
`btv3.c` no growth is missing, both models return, with the same window; and of any context of 1
to 24 bytes they know the same: whether it has been met, how often, and how often `b` came after. -/
theorem predictCounts_activeAt (B : Build) {s : List UInt8}
    (hpairs : (Ngram.log btMaxDepth s).toFinset.card ≤ btPool)
    (hctxs : ((Ngram.log btMaxDepth s).map Prod.fst).toFinset.card ≤ ctxPool)
    (hroom : RoomFor B (Ngram.log btMaxDepth s)) (ctxs : Nat → CtxEntry)
    (pool : Nat → Bt.BtEntry) (v3Ctxs : Nat → Bt.CtxEntry) :
    ∃ g0 g3, btV4TrainAll s (btV4Init ctxs) = .ok g0 ∧
      btV3TrainAll B (fun _ _ => .succeeds) s (btV3Init B pool v3Ctxs) = .ok g3 ∧
      g0.window = g3.window ∧ g0.window.bytes = Ngram.tail btMaxDepth s ∧
      ∀ (w : Window) (n : Nat) (b : UInt8), 1 ≤ n → n ≤ w.bytes.length →
        predictCounts { g0 with window := w } n b =
          .ok (lookup (Ngram.occurrences s (w.last n)) (Ngram.followed s (w.last n) b)) ∧
        (activeAt B (g3.reader B w) n).map (Option.map fun x => (x.1.totalFreq, actFreq x.2 b)) =
          .ok (lookup (Ngram.occurrences s (w.last n)) (Ngram.followed s (w.last n) b)) := by
  have hint : (Ngram.log btMaxDepth s).toFinset.card ≤ 2 ^ 31 :=
    hpairs.trans (by decide : btPool ≤ 2 ^ 31)
  obtain ⟨g0, hrun0, h0, hw0⟩ := btV4TrainAll_represents ctxs s
  obtain ⟨g3, hrun3, h3, hw3⟩ := trainAll_counted pool v3Ctxs hroom hint
  rw [Tally.within_eq_all hpairs hctxs] at h0
  refine ⟨g0, g3, hrun0, hrun3, Window.eq_of_bytes (hw0.trans hw3.symm), hw0,
    fun w n b hn hw => ?_⟩
  have hlast := w.last_length hw
  have hne : w.last n ≠ [] := List.ne_nil_of_length_pos (by omega)
  have hlen : (w.last n).length ≤ btMaxDepth := hlast.trans_le (hw.trans w.length_le)
  rw [← total_eq hne hlen, ← freq_eq hne hlen]
  exact ⟨h0.predictCounts_eq w n b, Counted.activeAt_eq h3 hint w n b⟩

theorem predictCounts_activeAt_aba : ∃ g0 g3,
    btV4TrainAll [97, 98, 97] (btV4Init fun _ => ⟨fun _ => 7, 7, 7, 7, 7⟩) = .ok g0 ∧
      btV3TrainAll .plain (fun _ _ => .succeeds) [97, 98, 97]
        (btV3Init .plain (fun _ => ⟨fun _ => 7, 7, 7, 7, 7⟩) fun _ => ⟨fun _ => 7, 7, 7, 7, 7⟩) =
          .ok g3 ∧
      g0.window = g3.window ∧ g0.window.bytes = Ngram.tail btMaxDepth [97, 98, 97] ∧
      ∀ (w : Window) (n : Nat) (b : UInt8), 1 ≤ n → n ≤ w.bytes.length →
        predictCounts { g0 with window := w } n b = .ok (lookup
          (Ngram.occurrences [97, 98, 97] (w.last n)) (Ngram.followed [97, 98, 97] (w.last n) b)) ∧
        (activeAt .plain (g3.reader .plain w) n).map
          (Option.map fun x => (x.1.totalFreq, actFreq x.2 b)) = .ok (lookup
          (Ngram.occurrences [97, 98, 97] (w.last n)) (Ngram.followed [97, 98, 97] (w.last n) b)) :=
  predictCounts_activeAt .plain (by decide) (by decide) (.inl rfl) _ _ _

end Bcb.V0
