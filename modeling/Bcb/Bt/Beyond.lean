import Bcb.Bt.Overfull
import Bcb.Bt.Saturated
import Bcb.Lib.Layout

/-! More entries than an `int` can name: the chain of a context is lost. -/

namespace Bcb.Bt

open Lib Layout

variable {B : Build} {T : Counts} {g g' : Globals} {ctx : List UInt8} {b : UInt8} {np nc : Nat}
  {us us' : List (List UInt8 × UInt8)} {al : UpdateAlloc}

theorem Consistent.unique_eq_zero (h : Consistent B us g) {i : Nat} (hi : i < g.ctx.used)
    (hlink : link (g.ctx.pool i).firstEntry = none) : (g.ctx.pool i).uniqueNext.toNat = 0 := by
  obtain ⟨chain, hok, -⟩ := h.contexts
  have hchain := (hok i hi).chain
  have hunique := (hok i hi).unique
  generalize chain i = l at hchain hunique
  rw [hlink] at hchain
  cases hchain
  exact hunique

theorem chain_length_le {extra : List UInt8 → Nat} (h : T.Sound extra) (c : List UInt8) :
    (T.chain c).length ≤ T.pairs.length := by
  have hsub : T.chain c ⊆ List.range T.pairs.length := by
    intro j hj
    obtain ⟨x, hx, -⟩ := h.chain_pairs _ j hj
    exact List.mem_range.2 (List.getElem?_eq_some_iff.1 hx).1
  have hcard := ((h.chain_nodup c).subperm hsub).length_le
  rwa [List.length_range] at hcard

/-- Where the entry of a context begins its chain at entry number `2^31`, the chain is lost. -/
theorem not_consistent_of_first {i : Nat} (hi : i < g.ctx.used)
    (hfirst : (g.ctx.pool i).firstEntry = toInt32 (2 ^ 31 : Nat)) {n : Nat} (hn : n ≤ 2 ^ 31)
    (hunique : (g.ctx.pool i).uniqueNext = UInt32.ofNat (n + 1)) : ¬ Consistent B us g := by
  intro hcons
  -- the index is negative as an `int`, so it is no link
  have hzero := hcons.unique_eq_zero hi (by
    rw [hfirst, link_toInt32 (by norm_num), if_neg (Nat.lt_irrefl _)])
  rw [hunique, UInt32.toNat_ofNat_of_lt' (by rw [UInt32.size]; omega)] at hzero
  exact Nat.succ_ne_zero _ hzero

theorem Represents.ctxGetH_beyond (h : Represents B T g) (hctx : Balanced g.ctx)
    (hroom : g.ctx.used < g.ctx.cap) (hused : g.ctx.used = 2 ^ 31) (hnew : ctx ∉ T.ctxs)
    (al : Growth) : ctxGetH B al ctx (fnv ctx) g.ctx = .error .oob := by
  have hreach : g.ctx.used < g.ctx.reach :=
    hctx.used_lt_reach h.ctx.indexed.used_le (by rw [hused]; norm_num)
  have hhas : g.ctx.hasRoom B.dynamic al = true := by
    rw [Table.hasRoom, decide_eq_true hroom, Bool.true_or]
  have hother : ∀ i < g.ctx.named, ¬ ctxSame ctx (g.ctx.pool i) = true := fun i hi hs =>
    hnew ((h.ctx.exists_same hused.le).1 ⟨i, hi, hs⟩)
  obtain ⟨t, hp, hsearch⟩ := h.ctx.indexed.place_new hctx.cap_pos hreach hother B.dynamic al
    (fnv ctx)
  rw [hhas, if_pos rfl] at hsearch
  obtain ⟨s, hsearch, -⟩ := hsearch
  rw [ctxGetH, hsearch, ok_bind]
  dsimp only
  rw [hp.used, hused]
  rfl

/-- The update that records entry number `2^31` leaves the tables inconsistent, or fails. -/
theorem Represents.btUpdate_beyond (h : Represents B T g) (hpos : 0 < ctx.length)
    (hlen : ctx.length ≤ btMaxDepth) (hbt : Balanced g.bt) (hctx : Balanced g.ctx)
    (hbtRoom : g.bt.used < g.bt.cap) (hctxRoom : g.ctx.used < g.ctx.cap)
    (hmem : (ctx, b) ∉ T.pairs) (hN : T.pairs.length = 2 ^ 31)
    (hrun : btUpdate B al ctx b g = .ok g') : ¬ Consistent B us g' := by
  have hguard : ¬ (ctx.length = 0 ∨ btMaxDepth < ctx.length) :=
    not_or.2 ⟨hpos.ne', not_lt.2 hlen⟩
  have hbtReach : g.bt.used < g.bt.reach :=
    hbt.used_lt_reach h.bt.indexed.used_le (by rw [h.bt.used, hN]; norm_num)
  have hctxs : g.ctx.used ≤ 2 ^ 31 := h.ctx.used ▸ h.sound.ctxs_length_le.trans hN.le
  have hctxReach : g.ctx.used < g.ctx.reach :=
    hctx.used_lt_reach h.ctx.indexed.used_le (hctxs.trans_lt (by norm_num))
  have hbtHas : g.bt.hasRoom B.dynamic al.bt = true := by
    rw [Table.hasRoom, decide_eq_true hbtRoom, Bool.true_or]
  have hctxHas : g.ctx.hasRoom B.dynamic al.ctx = true := by
    rw [Table.hasRoom, decide_eq_true hctxRoom, Bool.true_or]
  obtain ⟨bt', hcount, -, -, -⟩ := h.bt.btCount_spec (B := B) h.sound.pairs_nodup hlen hbt.cap_pos
    al.bt (.inr hbtReach) hN.le
  rw [Tally.recordPair, if_neg hmem, hbtHas, if_pos rfl, hN] at hcount
  by_cases hplace : ctx ∈ T.ctxs ∨ g.ctx.used < 2 ^ 31
  · obtain ⟨o, cs, hget, hC, hsome, hat, -⟩ := h.ctx.ctxGetH_spec (B := B) hlen
      (h.sound.total_ctxs ctx) (fun hn => by
        by_contra hne
        exact hn (h.sound.chain_ctxs ctx hne))
      hctx.cap_pos al.ctx (.inr hctxReach) (fun hn => hplace.resolve_left hn) hctxs
    have htrue : (T.recordCtx (g.ctx.hasRoom B.dynamic al.ctx) ctx).1 = true := by
      simp only [Tally.recordCtx, hctxHas, if_true]
      split_ifs <;> rfl
    rw [htrue] at hsome
    obtain ⟨cc, rfl⟩ := Option.isSome_iff_exists.1 hsome
    have hcc := hat cc rfl
    have hentry := hC.entry cc ctx hcc
    have hlt : cc < cs.used := hC.used ▸ (List.getElem?_eq_some_iff.1 hcc).1
    obtain ⟨-, -, hchain⟩ := Tally.recordCtx_pairs (g.ctx.hasRoom B.dynamic al.ctx) ctx T
    rw [btUpdate_placed hguard hcount hget rfl] at hrun
    obtain rfl := Except.ok.inj hrun
    have hpool : (((cs.modify cc fun e => { e with totalFreq := e.totalFreq + 1 }).modify cc
        fun e => { e with
          uniqueNext := e.uniqueNext + 1
          firstEntry := toInt32 (2 ^ 31 : Nat) }).pool cc) =
        { cs.pool cc with
          totalFreq := (cs.pool cc).totalFreq + 1
          uniqueNext := (cs.pool cc).uniqueNext + 1
          firstEntry := toInt32 (2 ^ 31 : Nat) } := by
      rw [Table.modify_modify, Table.modify_pool, if_pos rfl]
      rfl
    have hunique : (cs.pool cc).uniqueNext + 1 = UInt32.ofNat ((T.chain ctx).length + 1) := by
      rw [hentry.unique, hchain, UInt32.ofNat_add]
      rfl
    exact not_consistent_of_first (i := cc) hlt (congrArg CtxEntry.firstEntry hpool)
      ((chain_length_le h.sound ctx).trans hN.le)
      ((congrArg CtxEntry.uniqueNext hpool).trans hunique)
  · -- the context would get the first index that is negative
    obtain ⟨hnew, hfull⟩ := not_or.1 hplace
    have hused : g.ctx.used = 2 ^ 31 := Nat.le_antisymm hctxs (not_lt.1 hfull)
    rw [btUpdate, if_neg hguard] at hrun
    dsimp only at hrun
    rw [hcount, ok_bind] at hrun
    dsimp only at hrun
    rw [h.ctxGetH_beyond hctx hctxRoom hused hnew] at hrun
    cases hrun

/-! ## A sequence with more than `2^31` pairs -/

/-- A number in four bytes. -/
def word (i : Nat) : List UInt8 :=
  [UInt8.ofNat (i / 2 ^ 24), UInt8.ofNat (i / 2 ^ 16), UInt8.ofNat (i / 2 ^ 8), UInt8.ofNat i]

/-- The numbers below `N`. -/
def words (N : Nat) : List UInt8 := (List.range N).flatMap word

variable {N i j m n k : Nat}

@[simp] theorem words_length (N : Nat) : (words N).length = 4 * N := records_length fun _ _ => rfl

theorem words_at (hi : i < N) : At (words N) (4 * i) (word i) := by
  have hself : At (words N) 0 ((List.range N).flatMap word) := fun j _ => by
    rw [Nat.zero_add]
    rfl
  have hat := hself.record (k := 4) (fun _ _ => rfl) hi
  rwa [Nat.zero_add] at hat

theorem word_inj (hi : i < 2 ^ 32) (hj : j < 2 ^ 32) (h : word i = word j) : i = j := by
  have hbyte : ∀ {m n : Nat}, UInt8.ofNat m = UInt8.ofNat n → m % 256 = n % 256 := by
    intro m n hmn
    have hnat := congrArg UInt8.toNat hmn
    simpa using hnat
  simp only [word, List.cons.injEq, and_true] at h
  obtain ⟨h3, h2, h1, h0⟩ := h
  have h3 := hbyte h3
  have h2 := hbyte h2
  have h1 := hbyte h1
  have h0 := hbyte h0
  omega

/-- The `m` bytes before the last one of number `i`, and that byte. -/
def wordPair (N i m : Nat) : List UInt8 × UInt8 :=
  (((words N).take (4 * i + 3)).drop (4 * i + 3 - m), UInt8.ofNat i)

theorem wordPair_length (hi : i < N) (hm : m ≤ 4 * i + 3) : (wordPair N i m).1.length = m := by
  rw [wordPair, List.length_drop, List.length_take, words_length]
  omega

theorem wordPair_getElem? (hi : i < N) (hm : 3 ≤ m) (hle : m ≤ 4 * i + 3) (hk : k < 3) :
    (wordPair N i m).1[m - 3 + k]? = (word i)[k]? := by
  have hat := words_at hi k (hk.trans (by decide : 3 < 4))
  rw [wordPair, List.getElem?_drop, List.getElem?_take_of_lt (by omega), ← hat]
  congr 1
  omega

theorem wordPair_inj (hN : N ≤ 2 ^ 32) (hi : i < N) (hj : j < N) (hm : 3 ≤ m)
    (hmi : m ≤ 4 * i + 3) (hnj : n ≤ 4 * j + 3) (h : wordPair N i m = wordPair N j n) :
    i = j ∧ m = n := by
  have hlen := congrArg (fun k : List UInt8 × UInt8 => k.1.length) h
  simp only [wordPair_length hi hmi, wordPair_length hj hnj] at hlen
  subst hlen
  refine ⟨word_inj (hi.trans_le hN) (hj.trans_le hN) (List.ext_getElem? fun k => ?_), rfl⟩
  by_cases hk : k < 3
  · rw [← wordPair_getElem? hi hm hmi hk, ← wordPair_getElem? hj hm hnj hk, h]
  · by_cases hk3 : k = 3
    · rw [hk3]
      exact congrArg some (Prod.mk.inj h).2
    · have hout : ∀ i, (word i)[k]? = none := fun i =>
        List.getElem?_eq_none (show 4 ≤ k by omega)
      rw [hout, hout]

theorem wordPair_mem (h6 : 6 ≤ i) (hi : i < N) (hm : 3 ≤ m) (h24 : m < 24) :
    wordPair N i m ∈ Ngram.log btMaxDepth (words N) := by
  have hlen := wordPair_length hi (show m ≤ 4 * i + 3 by omega)
  have h0 : (wordPair N i m).1 ≠ [] := List.ne_nil_of_length_pos (by omega)
  have hD : (wordPair N i m).1.length ≤ btMaxDepth := by
    rw [hlen, btMaxDepth]
    omega
  refine (Ngram.mem_log_iff h0 hD (words N) _).2 ⟨4 * i + 3, ?_, List.drop_suffix _ _, ?_⟩
  · rw [words_length]
    omega
  · exact words_at hi 3 (by decide : 3 < 4)

theorem words_card (hN : N ≤ 2 ^ 32) :
    (N - 6) * 21 ≤ (Ngram.log btMaxDepth (words N)).toFinset.card := by
  have hsub : (Finset.Ico 6 N ×ˢ Finset.Ico 3 24).image (fun x => wordPair N x.1 x.2) ⊆
      (Ngram.log btMaxDepth (words N)).toFinset := by
    intro k hk
    obtain ⟨⟨i, m⟩, hx, rfl⟩ := Finset.mem_image.1 hk
    obtain ⟨hi, hm⟩ := Finset.mem_product.1 hx
    rw [Finset.mem_Ico] at hi hm
    exact List.mem_toFinset.2 (wordPair_mem hi.1 hi.2 hm.1 hm.2)
  have hcard := Finset.card_le_card hsub
  rwa [Finset.card_image_of_injOn, Finset.card_product, Nat.card_Ico, Nat.card_Ico] at hcard
  rintro ⟨i, m⟩ hx ⟨j, n⟩ hy heq
  obtain ⟨hi, hm⟩ := Finset.mem_product.1 (Finset.mem_coe.1 hx)
  obtain ⟨hj, hn⟩ := Finset.mem_product.1 (Finset.mem_coe.1 hy)
  rw [Finset.mem_Ico] at hi hm hj hn
  dsimp only at hi hm hj hn
  obtain ⟨rfl, rfl⟩ := wordPair_inj hN hi.2 hj.2 hm.1 (by omega) (by omega) heq
  rfl

/-! ## The build with `2^40` entries -/

theorem Saturated.recorded (h : Saturated B np nc us g) (hcard : us.toFinset.card = 2 ^ 31)
    (hnp : 2 ^ 31 < np) :
    ∃ T, Represents B T g ∧ T.pairs.length = 2 ^ 31 ∧ ∀ k ∈ T.pairs, k ∈ us := by
  obtain ⟨T, hT, hwithin, -⟩ := h.represents
  have hle := Within.pairs_length_le hwithin hT.sound
  rw [hcard] at hle
  refine ⟨T, hT, Nat.le_antisymm hle ?_, hwithin.met⟩
  rw [← hcard, ← List.toFinset_card_of_nodup hT.sound.pairs_nodup]
  apply Finset.card_le_card
  intro k hk
  by_contra hno
  have hfull := hwithin.lost k (List.mem_toFinset.1 hk) fun hmem => hno (List.mem_toFinset.2 hmem)
  omega

theorem updatesUpTo_succ {al : Nat → UpdateAlloc} (h : updatesUpTo B al b n g = .ok g') :
    updatesUpTo B al b (n + 1) g = btUpdate B (al (1 + n)) (g'.window.last (1 + n)) b g' := by
  rw [updatesUpTo, List.range'_concat, List.foldlM_append, Nat.one_mul]
  change (updatesUpTo B al b n g >>= _) = _
  rw [h, ok_bind, List.foldlM_cons]
  exact bind_pure _

/-- With `2^40` entries the chains do not stay consistent. -/
theorem consistentRuns_fixed_beyond :
    ¬ ConsistentRuns ⟨.fixed 40, true, false, true⟩ (2 ^ 40) (2 ^ 39) := by
  intro h
  have hcard := words_card (show 2 ^ 27 ≤ 2 ^ 32 by norm_num)
  have hlength := words_length (2 ^ 27)
  generalize words (2 ^ 27) = s at hcard hlength
  obtain ⟨pre, k, post, hlog, hk, hpre⟩ := exists_split (N := 2 ^ 31) _
    ((by norm_num : 2 ^ 31 < (2 ^ 27 - 6) * 21).trans_le hcard)
  obtain ⟨t, b, rest, n, rfl, rfl, hn⟩ := Ngram.log_split hlog
  rw [List.length_append, List.length_cons] at hlength
  obtain ⟨g, hrun, hpoints⟩ := h (fun _ => blankBt) (fun _ => blankCtx) (fun _ _ => .succeeds) t
    (by omega)
  -- up to this pair there is room for all
  have hroom : ∀ us,
      us <+: Ngram.log btMaxDepth t ++ (Ngram.ends (Ngram.tail btMaxDepth t) b).take n →
      min (2 ^ 40) us.toFinset.card ≤ 2 ^ 31 := fun us hus => (min_le_right _ _).trans
    (hpre ▸ Finset.card_le_card fun x hx => List.mem_toFinset.2 (hus.subset (List.mem_toFinset.1 hx)))
  have hpush : ∀ us (g : Globals) (w : Window),
      Saturated ⟨.fixed 40, true, false, true⟩ (2 ^ 40) (2 ^ 39) us g →
      Saturated ⟨.fixed 40, true, false, true⟩ (2 ^ 40) (2 ^ 39) us { g with window := w } :=
    fun us g w h => h.push w
  obtain ⟨g', hrun', hg, hwindow, -⟩ := trainFrom_ok (B := ⟨.fixed 40, true, false, true⟩)
    (s := t) (fun _ _ => .succeeds)
    (initAt_saturated ⟨.fixed 40, true, false, true⟩ ⟨40, rfl⟩ ⟨39, rfl⟩ (fun _ => blankBt)
      fun _ => blankCtx) rfl rfl hpush
    fun pre' k' post' hlog' hpos hlen i m g hg => hg.update rfl
      (hroom (pre' ++ [(k'.1, k'.2)])
        (List.IsPrefix.trans ⟨post', by rw [hlog', List.append_assoc]; rfl⟩
        (List.prefix_append _ _))) hpos hlen _
  obtain rfl := Except.ok.inj (hrun.symm.trans hrun')
  rw [← hwindow] at hn hroom
  have hlt : n < g.window.bytes.length := by
    rw [← Ngram.ends_length g.window.bytes b]
    exact (List.getElem?_eq_some_iff.1 hn).1
  have htake : (Ngram.ends g.window.bytes b).take n = endsUpTo g.window b n := by
    have hprefix := endsUpTo_begins hlt.le b
    rw [List.prefix_iff_eq_take.1 hprefix, endsUpTo, List.length_map, List.length_range']
  rw [htake] at hroom
  rw [← hwindow, htake] at hpre hk
  obtain ⟨g1, hrun1, hg1, hw1, -⟩ := updatesUpTo_ok (B := ⟨.fixed 40, true, false, true⟩)
    (b := b) (fun _ => .succeeds) hlt.le hg
    fun ns m ns' hns hpos hlen g1 h1 => h1.update rfl (hroom _ (by
      rw [endsUpTo, hns, List.append_assoc]
      exact ⟨ns'.map fun m => (g.window.last m, b), by simp⟩)) hpos hlen _
  obtain ⟨g2, hrun2, hcons⟩ := hpoints b (n + 1) hlt
  rw [updatesUpTo_succ hrun1, hw1] at hrun2
  have hkey : k = (g.window.last (1 + n), b) := by
    rw [Ngram.ends, List.getElem?_map, List.getElem?_range' hlt, Nat.one_mul] at hn
    exact (Option.some.inj hn).symm
  have hmem1 : 1 + n ∈ List.range' 1 g.window.bytes.length :=
    List.mem_range'_1.2 ⟨Nat.le_add_right 1 n, by omega⟩
  obtain ⟨hpos, hlen⟩ := last_mem hmem1
  obtain ⟨T, hT, hN, hmet⟩ := hg1.recorded hpre (by norm_num)
  have hused : g1.bt.used < g1.bt.cap := by
    rw [hg1.btCap, hT.bt.used, hN]
    norm_num
  have hctxUsed : g1.ctx.used < g1.ctx.cap := by
    rw [hg1.ctxCap, hT.ctx.used]
    exact (hT.sound.ctxs_length_le.trans hN.le).trans_lt (by norm_num)
  exact hT.btUpdate_beyond hpos hlen hg1.bt hg1.ctx hused hctxUsed
    (fun hmem => hk (hkey ▸ hmet _ hmem)) hN hrun2 hcons

end Bcb.Bt
