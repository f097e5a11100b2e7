import Bcb.Bt.Grams
import Bcb.Prior.Tables

namespace Bcb.Prior

open Lib Bt RangeCoder Foremost

/-- The `k` contexts of `n` bytes that `s` meets most often, the most frequent first. -/
structure MostFrequent (s : List UInt8) (n k : Nat) (cs : List (List UInt8)) : Prop where
  nodup : cs.Nodup
  met : ∀ c ∈ cs, c.length = n ∧ 0 < Ngram.occurrences s c
  sorted : cs.Pairwise fun c c' => Ngram.occurrences s c' ≤ Ngram.occurrences s c
  length_le : cs.length ≤ k
  rest : ∀ c, c.length = n → 0 < Ngram.occurrences s c → c ∉ cs →
    cs.length = k ∧ ∀ c' ∈ cs, Ngram.occurrences s c ≤ Ngram.occurrences s c'

/-- The row of `c`: what `s` has after it, and the distribution of the model behind. -/
def RowOf (B : Build) (D : Doubles) (s c : List UInt8) (row : UInt8 → UInt16) : Prop :=
  ∃ w : Window, w.bytes = c ∧
    landmarkRow D .wrapping (fun b => UInt32.ofNat (Ngram.followed s c b))
      (UInt32.ofNat (Ngram.occurrences s c)) (logTable B (Ngram.log btMaxDepth s) w) =
        .ok fun b => (row b).toNat

section Contexts

variable {B : Build} {us : List (List UInt8 × UInt8)} {g : Globals} {i n : Nat} {c : List UInt8}

theorem counted_ctxAt (h : Bt.Counted B us g) (hus : us.length < 2 ^ 31)
    (hi : (Tally.all us).ctxs[i]? = some c) :
    btV3CtxAt g i = .ok (some (g.ctx.pool i)) ∧ ctxOut (g.ctx.pool i) = .ok c ∧
      (g.ctx.pool i).ctxLen.toNat = c.length ∧
      (g.ctx.pool i).totalFreq = UInt32.ofNat ((Tally.all us).total c) ∧
      freq256 B g (g.ctx.pool i) = .ok fun b => UInt32.ofNat ((Tally.all us).freq (c, b)) := by
  have hT := h.represents
  have hpairs : (Tally.all us).pairs.length ≤ 2 ^ 31 := by
    rw [Tally.all_pairs_length]
    exact (List.toFinset_card_le us).trans hus.le
  obtain ⟨hlt, -⟩ := List.getElem?_eq_some_iff.1 hi
  have hentry := hT.ctx.entry i c hi
  have hsame := hentry.same
  rw [ctxSame, sameCtx, Bool.and_eq_true, decide_eq_true_eq, decide_eq_true_eq] at hsame
  obtain ⟨hlen, hbytes⟩ := hsame
  obtain ⟨b, hb⟩ := hT.sound.ctxs_pairs c (List.mem_of_getElem? hi)
  have hshort := (hT.short c (hT.sound.pairs_seen _ hb)).2
  refine ⟨(trained_ctxAt hT hpairs (hT.ctx.used ▸ hlt)).1, ?_, hlen, hentry.total, ?_⟩
  · rw [ctxOut, if_pos (hlen.trans_le hshort), hlen, hbytes]
    rfl
  · rw [freq256, hT.nextBytes_eq hpairs hi]
    exact congrArg Except.ok (funext fun b => V0.actFreq_eq hT c b)

/-- The place and the count of a context of `n` bytes. -/
def refOf (us : List (List UInt8 × UInt8)) (n i : Nat) : Option CtxRef :=
  let c := (Tally.all us).ctxs.getD i []
  if c.length = n then some ⟨i, UInt32.ofNat ((Tally.all us).total c)⟩ else none

theorem all_total_pos (hi : (Tally.all us).ctxs[i]? = some c) : 0 < (Tally.all us).total c := by
  have hexact := Tally.all_exact us
  have hmem := (hexact.mem_ctxs c).1 (List.mem_of_getElem? hi)
  rw [hexact.total]
  exact List.countP_pos_iff.2 ⟨c, hmem, by simp⟩

theorem toNat_total (hus : us.length < 2 ^ 31) (c : List UInt8) :
    (UInt32.ofNat ((Tally.all us).total c)).toNat = (Tally.all us).total c :=
  UInt32.toNat_ofNat_of_lt' (((all_total_le us c).trans_lt hus).trans (by norm_num))

theorem counted_ctxRef (h : Bt.Counted B us g) (hus : us.length < 2 ^ 31) (hi : i < g.ctx.used) :
    ctxRef g n i = .ok (refOf us n i) := by
  have hget := h.represents.ctxAt hi
  obtain ⟨hat, hout, hlen, htotal, -⟩ := counted_ctxAt h hus hget
  have hpos : 0 < (g.ctx.pool i).totalFreq := by
    rw [UInt32.lt_iff_toNat_lt, htotal, toNat_total hus]
    exact all_total_pos hget
  rw [ctxRef, hat, ok_bind]
  dsimp only
  rw [hout, ok_bind, refOf, hlen, htotal]
  rw [htotal] at hpos
  simp only [hpos, and_true]
  rfl

/-- The candidates. -/
def refsOf (us : List (List UInt8 × UInt8)) (n : Nat) : List CtxRef :=
  (List.range (Tally.all us).ctxs.length).filterMap (refOf us n)

theorem mem_refsOf {x : CtxRef} : x ∈ refsOf us n ↔ ∃ c, (Tally.all us).ctxs[x.idx]? = some c ∧
    c.length = n ∧ x.total = UInt32.ofNat ((Tally.all us).total c) := by
  rw [refsOf, List.mem_filterMap]
  constructor
  · rintro ⟨i, hi, hx⟩
    have hget : (Tally.all us).ctxs[i]? = some ((Tally.all us).ctxs.getD i []) := by
      rw [List.getD_eq_getElem?_getD, List.getElem?_eq_getElem (List.mem_range.1 hi)]
      rfl
    unfold refOf at hx
    dsimp only at hx
    split_ifs at hx with hlen
    obtain rfl := Option.some.inj hx
    exact ⟨_, hget, hlen, rfl⟩
  · rintro ⟨c, hget, hlen, htotal⟩
    obtain ⟨hlt, -⟩ := List.getElem?_eq_some_iff.1 hget
    refine ⟨x.idx, List.mem_range.2 hlt, ?_⟩
    have hgetD : (Tally.all us).ctxs.getD x.idx [] = c := by
      rw [List.getD_eq_getElem?_getD, hget]
      rfl
    rw [refOf, hgetD, if_pos hlen, ← htotal]

theorem refsOf_idx_nodup (us : List (List UInt8 × UInt8)) (n : Nat) :
    ((refsOf us n).map CtxRef.idx).Nodup := by
  have hidx : (refsOf us n).map CtxRef.idx =
      (List.range (Tally.all us).ctxs.length).filter
        fun i => ((Tally.all us).ctxs.getD i []).length = n := by
    rw [refsOf, List.map_filterMap, ← List.filterMap_eq_filter]
    congr 1
    funext i
    simp only [refOf, Option.guard]
    split_ifs <;> simp_all
  rw [hidx]
  exact List.nodup_range.filter _

end Contexts

section Rows

variable {B : Build} {D : Doubles} {us : List (List UInt8 × UInt8)} {g : Globals} {n : Nat}
  {c : List UInt8}

theorem landmark_eq (h : Bt.Counted B us g) (hus : us.length < 2 ^ 31) {x : CtxRef}
    (hx : (Tally.all us).ctxs[x.idx]? = some c) (hn : c.length = n) (hle : n ≤ btMaxDepth) :
    ∃ w : Window, w.bytes = c ∧ ∃ row, landmark B true D g n x = .ok (c, row) ∧
      FullRow rcScale row ∧
      landmarkRow D .wrapping (fun b => UInt32.ofNat ((Tally.all us).freq (c, b)))
        (UInt32.ofNat ((Tally.all us).total c)) (logTable B us w) = .ok row := by
  obtain ⟨hat, hout, -, htotal, hfreq⟩ := counted_ctxAt h hus hx
  have htake : c.take (min n btMaxDepth) = c := by
    rw [Nat.min_eq_left hle, ← hn, List.take_length]
  let w : Window := ⟨c.take (min n btMaxDepth), by rw [htake]; omega⟩
  obtain ⟨row, hrow, hfull⟩ := landmarkRow_ok D
    (fun b => UInt32.ofNat ((Tally.all us).freq (c, b)))
    (UInt32.ofNat ((Tally.all us).total c)) (logTable B us w)
  refine ⟨w, htake, row, ?_, hfull, hrow .wrapping⟩
  rw [landmark, hat, ok_bind]
  dsimp only
  rw [hout, ok_bind, hfreq, ok_bind, (h.table hus w).1, ok_bind, htotal, hrow .wrapping, ok_bind]
  rfl

end Rows

section Choice

variable {B : Build} {s c : List UInt8} {n k : Nat} (qsort : Sorting CtxRef.before)

/-- The contexts that are chosen, in their order. -/
def chosen (us : List (List UInt8 × UInt8)) (n k : Nat) : List (List UInt8) :=
  (foremost qsort k (refsOf us n)).map fun x => (Tally.all us).ctxs.getD x.idx []

theorem chosen_nodup (us : List (List UInt8 × UInt8)) (n k : Nat) : (chosen qsort us n k).Nodup := by
  have hidx := foremost_map_nodup qsort (k := k) (refsOf_idx_nodup us n)
  have hmap : chosen qsort us n k = ((foremost qsort k (refsOf us n)).map CtxRef.idx).map
      fun i => (Tally.all us).ctxs.getD i [] := by
    rw [chosen, List.map_map]
    rfl
  rw [hmap]
  refine hidx.map_on fun i hi j hj heq => ?_
  have hget : ∀ i ∈ (foremost qsort k (refsOf us n)).map CtxRef.idx,
      ∃ hlt : i < (Tally.all us).ctxs.length, (Tally.all us).ctxs.getD i [] =
        (Tally.all us).ctxs[i] := by
    intro i hi
    obtain ⟨x, hx, rfl⟩ := List.mem_map.1 hi
    obtain ⟨c, hc, -⟩ := mem_refsOf.1 (mem_of_mem_foremost _ hx)
    obtain ⟨hlt, -⟩ := List.getElem?_eq_some_iff.1 hc
    exact ⟨hlt, (List.getElem_eq_getD _).symm⟩
  obtain ⟨hi, hci⟩ := hget i hi
  obtain ⟨hj, hcj⟩ := hget j hj
  rw [hci, hcj] at heq
  exact (Tally.all_sound us).ctxs_nodup.getElem_inj_iff.1 heq

theorem chosen_length_le (us : List (List UInt8 × UInt8)) (n k : Nat) :
    (chosen qsort us n k).length ≤ us.length := by
  have hrefs : (refsOf us n).length ≤ (Tally.all us).ctxs.length := by
    rw [refsOf]
    exact (List.length_filterMap_le _ _).trans_eq List.length_range
  have hctxs : (Tally.all us).ctxs.length ≤ us.length := by
    rw [Tally.all_ctxs_length]
    exact (List.toFinset_card_le _).trans_eq (List.length_map _)
  rw [chosen, List.length_map, foremost_length]
  exact (Nat.min_le_right _ _).trans (hrefs.trans hctxs)

theorem chosen_mostFrequent (hs : btMaxDepth * s.length < 2 ^ 31) (hn : 1 ≤ n ∧ n ≤ btMaxDepth)
    (k : Nat) : MostFrequent s n k (chosen qsort (Ngram.log btMaxDepth s) n k) := by
  set us := Ngram.log btMaxDepth s with hus
  have hlen : us.length < 2 ^ 31 := (Ngram.log_length_le _ _).trans_lt hs
  have hcount : ∀ c : List UInt8, c.length = n →
      (Tally.all us).total c = Ngram.occurrences s c := fun c hc =>
    total_eq (List.ne_nil_of_length_pos (hc ▸ hn.1)) (hc.trans_le hn.2)
  have hmem : ∀ c : List UInt8, c.length = n →
      (c ∈ (Tally.all us).ctxs ↔ 0 < Ngram.occurrences s c) := by
    intro c hc
    rw [(Tally.all_exact us).mem_ctxs, ← List.count_pos_iff, hus,
      Ngram.count_log_fst (List.ne_nil_of_length_pos (hc ▸ hn.1)) (hc.trans_le hn.2)]
  have hget : ∀ x ∈ refsOf us n, ∃ c, (Tally.all us).ctxs.getD x.idx [] = c ∧ c.length = n ∧
      c ∈ (Tally.all us).ctxs ∧ x.total.toNat = Ngram.occurrences s c := by
    intro x hx
    obtain ⟨c, hc, hcn, htotal⟩ := mem_refsOf.1 hx
    refine ⟨c, ?_, hcn, List.mem_of_getElem? hc, ?_⟩
    · rw [List.getD_eq_getElem?_getD, hc]
      rfl
    · rw [htotal, toNat_total hlen, hcount c hcn]
  have hbefore : ∀ x ∈ refsOf us n, ∀ y ∈ refsOf us n, CtxRef.before x y →
      Ngram.occurrences s ((Tally.all us).ctxs.getD y.idx []) ≤
        Ngram.occurrences s ((Tally.all us).ctxs.getD x.idx []) := by
    intro x hx y hy hxy
    obtain ⟨c, hc, -, -, hcx⟩ := hget x hx
    obtain ⟨d, hd, -, -, hdy⟩ := hget y hy
    rw [hc, hd, ← hcx, ← hdy]
    exact UInt32.le_iff_toNat_le.1 hxy
  refine ⟨chosen_nodup qsort us n k, ?_, ?_, ?_, ?_⟩
  · intro c hc
    obtain ⟨x, hx, rfl⟩ := List.mem_map.1 hc
    obtain ⟨c, hc, hcn, hmemc, -⟩ := hget x (mem_of_mem_foremost _ hx)
    rw [hc]
    exact ⟨hcn, (hmem c hcn).1 hmemc⟩
  · rw [chosen, List.pairwise_map]
    exact (foremost_pairwise qsort k _).imp_of_mem fun hx hy =>
      hbefore _ (mem_of_mem_foremost _ hx) _ (mem_of_mem_foremost _ hy)
  · rw [chosen, List.length_map, foremost_length]
    exact Nat.min_le_left _ _
  · intro c hcn hpos hout
    obtain ⟨i, hi⟩ := List.mem_iff_getElem?.1 ((hmem c hcn).2 hpos)
    let x : CtxRef := ⟨i, UInt32.ofNat ((Tally.all us).total c)⟩
    have hx : x ∈ refsOf us n := mem_refsOf.2 ⟨c, hi, hcn, rfl⟩
    have hxc : (Tally.all us).ctxs.getD x.idx [] = c := by
      rw [List.getD_eq_getElem?_getD, hi]
      rfl
    have hxout : x ∉ foremost qsort k (refsOf us n) := fun hin =>
      hout (List.mem_map.2 ⟨x, hin, hxc⟩)
    constructor
    · have hlt : k < (refsOf us n).length := by
        by_contra hle
        exact hxout (mem_foremost_of_le _ (Nat.le_of_not_lt hle) hx)
      rw [chosen, List.length_map, foremost_length, Nat.min_eq_left hlt.le]
    · intro c' hc'
      obtain ⟨y, hy, rfl⟩ := List.mem_map.1 hc'
      have hle := hbefore y (mem_of_mem_foremost _ hy) x hx (foremost_before _ hx hxout hy)
      rwa [hxc] at hle

end Choice

/-- The tables of the landmarks hold the chosen contexts, with their rows. -/
theorem buildLandmarks_chosen {B : Build} {s : List UInt8} {g : Globals}
    (hg : Bt.Counted B (Ngram.log btMaxDepth s) g) (hs : btMaxDepth * s.length < 2 ^ 31)
    (D : Doubles) (qsort : Sorting CtxRef.before) {n : Nat} (hn : 1 ≤ n ∧ n ≤ btMaxDepth)
    (k : UInt32) :
    ∃ lm, buildLandmarks B true D qsort g n hn k = .ok lm ∧ lm.lmN = n ∧
      lm.lmK = (chosen qsort (Ngram.log btMaxDepth s) n k.toNat).length ∧
      ∀ r c, (chosen qsort (Ngram.log btMaxDepth s) n k.toNat)[r]? = some c →
        (List.range n).map (lm.lmCtx r) = c ∧ RowOf B D s c (lm.lmCum r) := by
  set us := Ngram.log btMaxDepth s with hlog
  have hus : us.length < 2 ^ 31 := (Ngram.log_length_le _ _).trans_lt hs
  have hrefs : (List.range g.ctx.used).mapM (ctxRef g n) =
      .ok ((List.range g.ctx.used).map (refOf us n)) :=
    mapM_eq_map fun i hi => counted_ctxRef hg hus (List.mem_range.1 hi)
  have hsome : ((List.range g.ctx.used).map (refOf us n)).filterMap id = refsOf us n := by
    rw [List.filterMap_map, refsOf, hg.represents.ctx.used]
    rfl
  have hrow : ∀ x ∈ refsOf us n, ∃ c, (Tally.all us).ctxs.getD x.idx [] = c ∧ c.length = n ∧
      ∃ w : Window, w.bytes = c ∧ ∃ row, landmark B true D g n x = .ok (c, row) ∧
        FullRow rcScale row ∧
        landmarkRow D .wrapping (fun b => UInt32.ofNat ((Tally.all us).freq (c, b)))
          (UInt32.ofNat ((Tally.all us).total c)) (logTable B us w) = .ok row := by
    intro x hx
    obtain ⟨c, hc, hcn, -⟩ := mem_refsOf.1 hx
    refine ⟨c, ?_, hcn, landmark_eq hg hus hc hcn hn.2⟩
    rw [List.getD_eq_getElem?_getD, hc]
    rfl
  obtain ⟨rows, hrows⟩ := mapM_ok (l := foremost qsort k.toNat (refsOf us n))
    (f := landmark B true D g n) fun x hx => by
      obtain ⟨c, -, -, w, -, row, hrun, -⟩ := hrow x (mem_of_mem_foremost _ hx)
      exact ⟨_, hrun⟩
  have hbuild : buildLandmarks B true D qsort g n hn k = .ok {
      lmN := n
      lmK := min k.toNat (qsort.sort (refsOf us n)).length
      lmCtx := fun r i => ((rows.map Prod.fst).getD r []).getD i 0
      lmCum := fun r b => UInt16.ofNat ((rows.map Prod.snd).getD r (fun _ => 0) b)
      lmN_mem := hn
      lmK_lt := (Nat.min_le_left _ _).trans_lt k.toNat_lt } := by
    rw [buildLandmarks, hrefs, ok_bind]
    dsimp only
    simp only [hsome]
    change (List.mapM (landmark B true D g n) (foremost qsort k.toNat (refsOf us n)) >>= _)
      = _
    rw [hrows, ok_bind]
    rfl
  refine ⟨_, hbuild, rfl, ?_, ?_⟩
  · rw [chosen, List.length_map, foremost_length, qsort.length_sort]
  · intro r c hr
    rw [chosen, List.getElem?_map, Option.map_eq_some_iff] at hr
    obtain ⟨x, hx, rfl⟩ := hr
    obtain ⟨c, hc, hcn, w, hw, row, hrun, hfull, hland⟩ :=
      hrow x (mem_of_mem_foremost _ (List.mem_of_getElem? hx))
    obtain ⟨y, hy, hget⟩ := mapM_getElem hrows hx
    obtain rfl := Except.ok.inj (hrun.symm.trans hy)
    have h0 : c ≠ [] := List.ne_nil_of_length_pos (hcn ▸ hn.1)
    have hshort : c.length ≤ btMaxDepth := hcn.trans_le hn.2
    simp only [hc, List.getD_eq_getElem?_getD, List.getElem?_map, hget, Option.map_some,
      Option.getD_some]
    constructor
    · apply List.ext_getElem
      · rw [List.length_map, List.length_range, hcn]
      · intro i _ hi
        rw [List.getElem_map, List.getElem_range, List.getElem?_eq_getElem hi]
        rfl
    · have hstored : (fun b => (UInt16.ofNat (row b)).toNat) = row := funext hfull.stored
      simp only [us, freq_eq h0 hshort, total_eq h0 hshort] at hland
      exact ⟨w, hw, hland.trans (congrArg Except.ok hstored.symm)⟩

/-- The landmarks of a trained model are the contexts that the text meets most often, each with
the row of what follows it there. -/
theorem buildLandmarks_mostFrequent {B : Build} (D : Doubles) (qsort : Sorting CtxRef.before)
    (pool : Nat → BtEntry)
    (ctxPool : Nat → CtxEntry) {s : List UInt8} (hroom : RoomFor B (Ngram.log btMaxDepth s))
    (hs : btMaxDepth * s.length < 2 ^ 31) {n : Nat} (hn : 1 ≤ n ∧ n ≤ btMaxDepth) (k : UInt32) :
    ∃ g lm cs, btV3TrainAll B (fun _ _ => .succeeds) s (btV3Init B pool ctxPool) = .ok g ∧
      buildLandmarks B true D qsort g n hn k = .ok lm ∧ MostFrequent s n k.toNat cs ∧
      lm.lmN = n ∧ lm.lmK = cs.length ∧ ∀ r c, cs[r]? = some c →
        (List.range n).map (lm.lmCtx r) = c ∧ RowOf B D s c (lm.lmCum r) := by
  obtain ⟨g, htrain, hg, -⟩ := trainAll_counted pool ctxPool hroom
    ((List.toFinset_card_le _).trans ((Ngram.log_length_le _ _).trans hs.le))
  obtain ⟨lm, hbuild, htables⟩ := buildLandmarks_chosen hg hs D qsort hn k
  exact ⟨g, lm, _, htrain, hbuild, chosen_mostFrequent qsort hs hn k.toNat, htables⟩

theorem buildLandmarks_mostFrequent_abab : ∃ g lm cs,
    btV3TrainAll .plain (fun _ _ => .succeeds) [97, 98, 97, 98]
      (btV3Init .plain (fun _ => ⟨fun _ => 7, 7, 7, 7, 7⟩) fun _ => ⟨fun _ => 7, 7, 7, 7, 7⟩) =
        .ok g ∧
      buildLandmarks .plain true .exact (.stable _) g 1 (by decide) 1 = .ok lm ∧
      MostFrequent [97, 98, 97, 98] 1 1 cs ∧ lm.lmN = 1 ∧ lm.lmK = cs.length ∧
      ∀ r c, cs[r]? = some c → (List.range 1).map (lm.lmCtx r) = c ∧
        RowOf .plain .exact [97, 98, 97, 98] c (lm.lmCum r) :=
  buildLandmarks_mostFrequent .exact (.stable _) _ _ (.inl rfl) (by decide) _ 1

end Bcb.Prior
