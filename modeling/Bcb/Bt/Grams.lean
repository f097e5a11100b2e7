import Bcb.Bt.Ample
import Bcb.Bt.Formula
import Bcb.V0.SameCounts

namespace Bcb.Bt

open Lib RangeCoder

/-- How often the last bytes of the window, and a byte after them, are among the pairs `us`. -/
def logGrams (us : List (List UInt8 × UInt8)) (w : Window) (b : UInt8) : Grams := fun n =>
  V0.lookup ((us.map Prod.fst).count (w.last n)) (us.count (w.last n, b))

/-- The table for the window `w` after training on the pairs `us`. -/
def logTable (B : Build) (us : List (List UInt8 × UInt8)) (w : Window) : Cum :=
  gramTable B (logGrams us w) w.bytes.length rcScale

variable {B : Build} {us : List (List UInt8 × UInt8)} {g : Globals}

theorem activeOf_eq {r : BtV3Reader} {n : Nat} {b : UInt8} {o : Option (UInt32 × UInt32)}
    (h : (activeAt B r n).map (Option.map fun x => (x.1.totalFreq, actFreq x.2 b)) = .ok o) :
    (activeOf B r n).map (fun x => (x.cc.totalFreq, actFreq x.chain b)) = o := by
  obtain ⟨x, hx, rfl⟩ := map_eq_ok.1 h
  rw [activeOf, hx]
  cases x <;> rfl

theorem lookup_all (us : List (List UInt8 × UInt8)) (w : Window) (n : Nat) (b : UInt8) :
    V0.lookup ((Tally.all us).total (w.last n)) ((Tally.all us).freq (w.last n, b)) =
      logGrams us w b n := by
  have hexact := Tally.all_exact us
  rw [logGrams, hexact.freq, hexact.total]
  congr 2 <;> exact lawful_beq_subsingleton _ _

theorem Counted.readerGrams_eq (h : Counted B us g) (hint : us.toFinset.card ≤ 2 ^ 31)
    (w : Window) : readerGrams B (g.reader B w) = logGrams us w := by
  funext b n
  rw [readerGrams, activeOf_eq (V0.Counted.activeAt_eq h hint w n b), lookup_all]

theorem all_total_le (us : List (List UInt8 × UInt8)) (c : List UInt8) :
    (Tally.all us).total c ≤ us.length := by
  rw [(Tally.all_exact us).total]
  exact List.countP_le_length.trans (List.length_map ..).le

/-- Any window has its table, and the table is the formula. -/
theorem Counted.table (h : Counted B us g) (hus : us.length < 2 ^ 31) (w : Window) :
    btV3DistributionR B true (g.reader B w) rcScale = .ok (logTable B us w) ∧
      Ample (logTable B us w) := by
  have hint : us.toFinset.card ≤ 2 ^ 31 := (List.toFinset_card_le us).trans hus.le
  have hpairs : (Tally.all us).pairs.length ≤ 2 ^ 31 := (Tally.all_pairs_length us).trans_le hint
  have hused : g.ctx.used ≤ 2 ^ 31 :=
    h.represents.ctx.used ▸ h.represents.sound.ctxs_length_le.trans hpairs
  have hroom := h.ctx.used_lt_reach h.represents.ctx.indexed.used_le
    (hused.trans_lt (by decide : 2 ^ 31 < 2 ^ 32))
  obtain ⟨cum, hcum, hample⟩ := h.represents.ample hpairs (lt_of_lt_of_le hroom (Table.reach_le _))
    hus (all_total_le us) w
  have heq := btV3DistributionR_eq hcum
  rw [h.readerGrams_eq hint w] at heq
  have hlog : cum = logTable B us w := heq
  exact ⟨hlog ▸ hcum, hlog ▸ hample⟩

section Train

variable {g' : Globals} {b : UInt8}

theorem Counted.congr (h : Counted B us g) (hbt : g'.bt = g.bt) (hctx : g'.ctx = g.ctx)
    (hbloom : g'.bloom = g.bloom) : Counted B us g' := by
  obtain ⟨bt, ctx, bloom, w, f⟩ := g
  obtain ⟨bt', ctx', bloom', w', f'⟩ := g'
  dsimp only at hbt hctx hbloom
  subst hbt hctx hbloom
  exact ⟨⟨h.represents.sound, h.represents.short, h.represents.bt, h.represents.ctx,
    h.represents.bloom⟩, h.bt, h.ctx, h.caps⟩

theorem RoomFor.begin {us' : List (List UInt8 × UInt8)} (h : RoomFor B us) (hpre : us' <+: us) :
    RoomFor B us' := by
  obtain ⟨rest, rfl⟩ := hpre
  exact h.begins

theorem Counted.train (h : Counted B us g) (hfrozen : g.frozen = false)
    (hroom : RoomFor B (us ++ Ngram.ends g.window.bytes b))
    (hshort : (us ++ Ngram.ends g.window.bytes b).length < 2 ^ 31) :
    ∃ g', btV3Train B (fun _ => .succeeds) b g = .ok g' ∧
      Counted B (us ++ Ngram.ends g.window.bytes b) g' ∧ g'.window = g.window.push b ∧
      g'.frozen = false := by
  have hturns := updatesUpTo_ok (P := Counted B) (B := B) (b := b) (fun _ => .succeeds)
    (n := g.window.bytes.length) le_rfl h ?_
  · obtain ⟨g', hrun, hg', hw, hf⟩ := hturns
    refine ⟨{ g' with window := g'.window.push b }, ?_, ?_, ?_, hf.trans hfrozen⟩
    · rw [btV3Train, hfrozen]
      change (updatesUpTo B (fun _ => .succeeds) b g.window.bytes.length g >>= _) = _
      rw [hrun]
      rfl
    · exact Counted.congr (g := g') hg' rfl rfl rfl
    · exact congrArg (Window.push · b) hw
  · intro ns n ns' hns hpos hlen g1 hg1
    have hpre : (us ++ ns.map fun n => (g.window.last n, b)) ++ [(g.window.last n, b)] <+:
        us ++ Ngram.ends g.window.bytes b := by
      have hends : Ngram.ends g.window.bytes b =
          (ns.map fun n => (g.window.last n, b)) ++ (g.window.last n, b) ::
            ns'.map fun n => (g.window.last n, b) := by
        change (List.range' 1 g.window.bytes.length).map (fun n => (g.window.last n, b)) = _
        rw [hns, List.map_append, List.map_cons]
      rw [hends]
      exact ⟨ns'.map fun n => (g.window.last n, b), by simp⟩
    exact hg1.update (hroom.begin hpre) hpos hlen
      ((List.toFinset_card_le _).trans (hpre.length_le.trans hshort.le))

end Train

end Bcb.Bt
