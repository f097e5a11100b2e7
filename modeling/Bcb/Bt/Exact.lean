import Bcb.Bt.Recall

namespace Bcb.Bt

open Lib

variable {B : Build} {g : Globals} {ctx : List UInt8} {b : UInt8}

/-- The tables of the build can grow, or have from the start the room that the updates need. -/
def RoomFor (B : Build) (us : List (List UInt8 × UInt8)) : Prop :=
  B.dynamic = true ∨ B.sizing ≠ .fixed 0 ∧ us.toFinset.card ≤ B.poolCap0 ∧
    (us.map Prod.fst).toFinset.card ≤ B.ctxCap0

theorem RoomFor.begins {us us' : List (List UInt8 × UInt8)} (h : RoomFor B (us ++ us')) :
    RoomFor B us := by
  rcases h with hB | ⟨hB, hp, hc⟩
  · exact .inl hB
  · rw [List.map_append] at hc
    exact .inr ⟨hB, (Tally.card_toFinset_append_le _ _).trans hp,
      (Tally.card_toFinset_append_le _ _).trans hc⟩

theorem RoomFor.sizing {us : List (List UInt8 × UInt8)} (h : RoomFor B us) :
    B.sizing ≠ .fixed 0 := by
  rcases h with hB | ⟨hB, -⟩
  · rw [of_decide_eq_true hB]
    exact nofun
  · exact hB

/-- The tables hold all of the updates `us`. -/
structure Counted (B : Build) (us : List (List UInt8 × UInt8)) (g : Globals) : Prop where
  represents : Represents B (Tally.all us) g
  bt : Balanced g.bt
  ctx : Balanced g.ctx
  caps : B.dynamic = false → g.bt.cap = B.poolCap0 ∧ g.ctx.cap = B.ctxCap0

@[simp] theorem hasRoom_succeeds {α : Type} (t : Table α) : t.hasRoom true ⟨true, true⟩ = true :=
  Bool.or_true _

theorem Counted.hasRoom {us : List (List UInt8 × UInt8)} (h : Counted B us g)
    (hroom : RoomFor B (us ++ [(ctx, b)])) :
    ((ctx, b) ∈ (Tally.all us).pairs ∨ g.bt.hasRoom B.dynamic ⟨true, true⟩ = true) ∧
      (ctx ∈ (Tally.all us).ctxs ∨ g.ctx.hasRoom B.dynamic ⟨true, true⟩ = true) := by
  cases hB : B.dynamic with
  | true => exact ⟨.inr (hasRoom_succeeds _), .inr (hasRoom_succeeds _)⟩
  | false =>
    obtain ⟨hbt, hctx⟩ := h.caps hB
    rcases hroom with hdyn | ⟨-, hp, hc⟩
    · exact absurd (hB.symm.trans hdyn) Bool.false_ne_true
    · rw [hasRoom_fixed, hasRoom_fixed, hbt, hctx, h.represents.bt.used, h.represents.ctx.used]
      exact (Tally.all_room hp hc).imp (Or.imp_right (decide_eq_true ·))
        (Or.imp_right (decide_eq_true ·))

theorem Counted.update {us : List (List UInt8 × UInt8)} (h : Counted B us g)
    (hroom : RoomFor B (us ++ [(ctx, b)])) (hpos : 0 < ctx.length) (hlen : ctx.length ≤ btMaxDepth)
    (hint : (us ++ [(ctx, b)]).toFinset.card ≤ 2 ^ 31) :
    ∃ g', btUpdate B .succeeds ctx b g = .ok g' ∧ Counted B (us ++ [(ctx, b)]) g' ∧
      g'.window = g.window ∧ g'.frozen = g.frozen := by
  have hall : Counts.updateIn (Tally.all us) B .succeeds g (ctx, b) =
      Tally.all (us ++ [(ctx, b)]) := by
    obtain ⟨hpair, hctx⟩ := h.hasRoom hroom
    rw [Counts.updateIn, Tally.all_concat]
    exact Tally.update_of_room hpair hctx
  have hpairs : (Tally.all us).pairs.length ≤ 2 ^ 31 := by
    rw [Tally.all_pairs_length]
    exact (Tally.card_toFinset_append_le _ _).trans hint
  have hbt : g.bt.used < g.bt.reach := by
    apply h.bt.used_lt_reach h.represents.bt.indexed.used_le
    rw [h.represents.bt.used]
    omega
  have hctx : g.ctx.used < g.ctx.reach := by
    apply h.ctx.used_lt_reach h.represents.ctx.indexed.used_le
    have hle := h.represents.sound.ctxs_length_le
    rw [h.represents.ctx.used]
    omega
  rw [← Tally.all_pairs_length] at hint
  obtain ⟨g', hrun, hupd⟩ := btUpdate_spec h.represents hpos hlen h.bt.cap_pos h.ctx.cap_pos
    (.inr hbt) (.inr (.inr hctx)) (hall ▸ hint)
  have hwhole : Whole ⟨true, true⟩ := fun _ => rfl
  refine ⟨g', hrun, ⟨hall ▸ hupd.represents, h.bt.placed hwhole hupd.btSizes_or,
    h.ctx.placed hwhole hupd.ctxSizes_or, fun hB => ?_⟩, hupd.window, hupd.frozen⟩
  obtain ⟨hbtSizes, hctxSizes⟩ := hupd.fixed hB
  obtain ⟨hbtCap, hctxCap⟩ := h.caps hB
  exact ⟨(Prod.mk.inj hbtSizes).1.trans hbtCap, (Prod.mk.inj hctxSizes).1.trans hctxCap⟩

theorem init_counted (hB : B.sizing ≠ .fixed 0) (pool : Nat → BtEntry)
    (ctxPool : Nat → CtxEntry) : Counted B [] (btV3Init B pool ctxPool) := by
  obtain ⟨hbt, hctx⟩ := init_balanced hB pool ctxPool
  exact ⟨init_represents B pool ctxPool, hbt, hctx, fun _ => ⟨rfl, rfl⟩⟩

/-- With room, and without allocation failures, training returns, and counts all. -/
theorem trainAll_counted (pool : Nat → BtEntry) (ctxPool : Nat → CtxEntry) {s : List UInt8}
    (hroom : RoomFor B (Ngram.log btMaxDepth s))
    (hint : (Ngram.log btMaxDepth s).toFinset.card ≤ 2 ^ 31) :
    ∃ g, btV3TrainAll B (fun _ _ => .succeeds) s (btV3Init B pool ctxPool) = .ok g ∧
      Counted B (Ngram.log btMaxDepth s) g ∧ g.window.bytes = Ngram.tail btMaxDepth s := by
  have hwindow : ∀ us (g : Globals) (w : Window), Counted B us g →
      Counted B us { g with window := w } := fun us g w h =>
    ⟨⟨h.represents.sound, h.represents.short, h.represents.bt, h.represents.ctx,
      h.represents.bloom⟩, h.bt, h.ctx, h.caps⟩
  obtain ⟨g, hrun, hg, hbytes, -⟩ := trainFrom_ok (B := B) (s := s) (fun _ _ => .succeeds)
    (init_counted hroom.sizing pool ctxPool) rfl rfl hwindow
    fun pre k post hl hpos hlen _ _ g h => by
      rw [hl, List.append_cons] at hroom hint
      exact h.update hroom.begins hpos hlen ((Tally.card_toFinset_append_le _ _).trans hint)
  exact ⟨g, hrun, hg, hbytes⟩

/-- The context found, and its entries, hold the counts of the sequence. -/
def CountsOf (s c : List UInt8) : Option (CtxEntry × List BtEntry) → Prop
  | none => Ngram.occurrences s c = 0
  | some (cc, chain) => 0 < Ngram.occurrences s c ∧ cc.totalFreq.toNat = Ngram.occurrences s c ∧
    (chain.map BtEntry.nextByte).Nodup ∧
    (∀ b, b ∈ chain.map BtEntry.nextByte ↔ 0 < Ngram.followed s c b) ∧
    ∀ e ∈ chain, e.freq.toNat = Ngram.followed s c e.nextByte

section Lookup

variable {s c : List UInt8}

theorem toNat_ofNat_of_le {m : Nat} (h : m ≤ s.length) (hs : btMaxDepth * s.length < 2 ^ 31) :
    (UInt32.ofNat m).toNat = m := by
  apply UInt32.toNat_ofNat_of_lt'
  simp only [btMaxDepth] at hs
  rw [UInt32.size]
  omega

theorem log_card_le (s : List UInt8) :
    (Ngram.log btMaxDepth s).toFinset.card ≤ btMaxDepth * s.length :=
  (List.toFinset_card_le _).trans (Ngram.log_length_le _ _)

theorem freq_eq (h0 : c ≠ []) (hlen : c.length ≤ btMaxDepth) (b : UInt8) :
    (Tally.all (Ngram.log btMaxDepth s)).freq (c, b) = Ngram.followed s c b := by
  rw [(Tally.all_exact (Ngram.log btMaxDepth s)).freq, ← Ngram.count_log h0 hlen]
  congr
  exact lawful_beq_subsingleton _ _

theorem total_eq (h0 : c ≠ []) (hlen : c.length ≤ btMaxDepth) :
    (Tally.all (Ngram.log btMaxDepth s)).total c = Ngram.occurrences s c := by
  rw [(Tally.all_exact (Ngram.log btMaxDepth s)).total, ← Ngram.count_log_fst h0 hlen]
  congr
  exact lawful_beq_subsingleton _ _

theorem chain_counts (h : Counted B (Ngram.log btMaxDepth s) g) (h0 : c ≠ [])
    (hlen : c.length ≤ btMaxDepth) (hs : btMaxDepth * s.length < 2 ^ 31) :
    (((Tally.all (Ngram.log btMaxDepth s)).chain c).map
        fun j => (g.bt.pool j).nextByte).Nodup ∧
      (∀ b, b ∈ (((Tally.all (Ngram.log btMaxDepth s)).chain c).map
        fun j => (g.bt.pool j).nextByte) ↔ 0 < Ngram.followed s c b) ∧
      ∀ j ∈ (Tally.all (Ngram.log btMaxDepth s)).chain c,
        (g.bt.pool j).freq.toNat = Ngram.followed s c (g.bt.pool j).nextByte := by
  have hsound := h.represents.sound
  have hexact := Tally.all_exact (Ngram.log btMaxDepth s)
  -- an entry of the chain is the entry of its pair
  have hbyte : ∀ {j b}, (Tally.all (Ngram.log btMaxDepth s)).pairs[j]? = some (c, b) →
      (g.bt.pool j).nextByte = b := fun hj =>
    (btSame_iff.1 (h.represents.bt.same _ _ hj)).1
  refine ⟨h.represents.chain_bytes_nodup c, ?_, ?_⟩
  · intro b
    rw [← Ngram.count_log h0 hlen, List.count_pos_iff, List.mem_map]
    constructor
    · rintro ⟨j, hj, rfl⟩
      obtain ⟨b, hb, -⟩ := hsound.chain_pairs c j hj
      rw [hbyte hb]
      exact (hexact.mem_pairs _).1 (List.mem_of_getElem? hb)
    · intro hmem
      obtain ⟨j, hj, hb⟩ := hexact.chained _ hmem
      exact ⟨j, hj, hbyte hb⟩
  · intro j hj
    obtain ⟨b, hb, -⟩ := hsound.chain_pairs c j hj
    rw [h.represents.bt.freq j _ hb, hbyte hb, freq_eq h0 hlen]
    exact toNat_ofNat_of_le (Ngram.followed_le s c b) hs

theorem lookup_counts (h : Counted B (Ngram.log btMaxDepth s) g) {w : Window} {n : Nat}
    (hn : 1 ≤ n) (hw : n ≤ w.bytes.length) (hs : btMaxDepth * s.length < 2 ^ 31) :
    ∃ found, activeAt B (g.reader B w) n = .ok found ∧ CountsOf s (w.last n) found := by
  have hlast := w.last_length hw
  have h0 : w.last n ≠ [] := List.ne_nil_of_length_pos (by omega)
  have hlen : (w.last n).length ≤ btMaxDepth := hlast.trans_le (hw.trans w.length_le)
  have hexact := Tally.all_exact (Ngram.log btMaxDepth s)
  have hpairs : (Tally.all (Ngram.log btMaxDepth s)).pairs.length < 2 ^ 31 := by
    rw [Tally.all_pairs_length]
    exact (log_card_le s).trans_lt hs
  have hctxs : g.ctx.used < 2 ^ 31 := by
    rw [h.represents.ctx.used]
    exact h.represents.sound.ctxs_length_le.trans_lt hpairs
  have hocc := Ngram.count_log_fst h0 hlen s
  by_cases hmem : w.last n ∈ (Tally.all (Ngram.log btMaxDepth s)).ctxs
  · obtain ⟨i, hi⟩ := List.mem_iff_getElem?.1 hmem
    have hpos : 0 < Ngram.occurrences s (w.last n) := by
      rw [← hocc, List.count_pos_iff]
      exact (hexact.mem_ctxs _).1 hmem
    have htotal : (g.ctx.pool i).totalFreq.toNat = Ngram.occurrences s (w.last n) := by
      rw [(h.represents.ctx.entry i _ hi).total, total_eq h0 hlen]
      exact toNat_ofNat_of_le (Ngram.occurrences_le s _) hs
    have hne : (g.ctx.pool i).totalFreq ≠ 0 := by
      intro hzero
      rw [hzero] at htotal
      exact hpos.ne htotal
    refine ⟨_, h.represents.activeAt_found hpairs.le hi, ?_⟩
    rw [if_neg hne]
    obtain ⟨hnodup, hbytes, hfreq⟩ := chain_counts h h0 hlen hs
    refine ⟨hpos, htotal, ?_, ?_, ?_⟩
    · rw [List.map_map]
      exact hnodup
    · rw [List.map_map]
      exact hbytes
    · intro e he
      obtain ⟨j, hj, rfl⟩ := List.mem_map.1 he
      exact hfreq j hj
  · have hroom := h.ctx.used_lt_reach h.represents.ctx.indexed.used_le
      (hctxs.trans (by decide : 2 ^ 31 < 2 ^ 32))
    refine ⟨none, h.represents.activeAt_absent hroom hctxs.le hmem, ?_⟩
    change Ngram.occurrences s (w.last n) = 0
    rw [← hocc, List.count_eq_zero, ← hexact.mem_ctxs]
    exact hmem

end Lookup

/-- After training the lookups find the contexts of the sequence, with what follows them. -/
theorem btV3Train_counts (hB : B.sizing = .dynamic) (pool : Nat → BtEntry)
    (ctxPool : Nat → CtxEntry) {s : List UInt8} (hs : btMaxDepth * s.length < 2 ^ 31) :
    ∃ g, btV3TrainAll B (fun _ _ => .succeeds) s (btV3Init B pool ctxPool) = .ok g ∧
      ∀ (w : Window) (n : Nat), 1 ≤ n → n ≤ w.bytes.length →
        ∃ found, activeAt B (g.reader B w) n = .ok found ∧ CountsOf s (w.last n) found := by
  obtain ⟨g, hrun, hg, -⟩ := trainAll_counted pool ctxPool (.inl (decide_eq_true hB))
    ((log_card_le s).trans hs.le)
  exact ⟨g, hrun, fun w n hn hw => lookup_counts hg hn hw hs⟩

theorem btV3Train_counts_aba : ∃ g,
    btV3TrainAll .plain (fun _ _ => .succeeds) [97, 98, 97]
      (btV3Init .plain (fun _ => ⟨fun _ => 7, 7, 7, 7, 7⟩) fun _ => ⟨fun _ => 7, 7, 7, 7, 7⟩) =
        .ok g ∧
      ∀ (w : Window) (n : Nat), 1 ≤ n → n ≤ w.bytes.length → ∃ found,
        activeAt .plain (g.reader .plain w) n = .ok found ∧ CountsOf [97, 98, 97] (w.last n) found :=
  btV3Train_counts rfl _ _ (by decide)

end Bcb.Bt
