import Bcb.Bt.Adaptive
import Bcb.Symdist.Normalize
import Bcb.V0.Predict

/-! The coders over `bt_model.c`: `cec_default_bt`, and `symdist_bt` of `symdist.c`.  Their pools
do not grow, and may be full. -/

namespace Bcb.V0

open Lib Bt RangeCoder Symdist

noncomputable def cecDefaultBt : CecBT Globals where
  distribution scale g := do
    let cum ← btV4Distribution g scale
    return (cum, g)
  train := btV4Train

noncomputable def symdistBt : CecBT Globals where
  distribution scale g := do
    let cum ← btV4Distribution g scale
    let cum ← symdistNormalize .wrapping cum scale
    return (cum, g)
  train := btV4Train

/-! ## The lookups -/

/-- What a tally knows of a byte after a context.  A pair that had no room counts 0. -/
def known (T : Counts) (c : List UInt8) (b : UInt8) : Option (UInt32 × UInt32) :=
  lookup (T.total c) (if (c, b) ∈ T.pairs then T.freq (c, b) else 0)

theorem Represents.predictCounts_known {T : Counts} {g : Globals} (h : Represents T g) (n : Nat)
    (b : UInt8) : predictCounts g n b = .ok (known T (g.window.last n) b) := by
  unfold predictCounts known lookup
  dsimp only
  by_cases hmem : g.window.last n ∈ T.ctxs
  · obtain ⟨i, hi⟩ := List.mem_iff_getElem?.1 hmem
    obtain ⟨b', hb'⟩ := h.sound.ctxs_pairs _ hmem
    have hbloom := bloomChk_of_has (h.bloom _ (h.sound.pairs_seen _ hb'))
    rw [hbloom, Bool.not_true, if_neg Bool.false_ne_true,
      h.ctx.ctxFindH_some h.sound.ctxs_nodup hi, ok_bind]
    dsimp only
    rw [h.ctx.stores.read hi, ok_bind, h.ctx.total i _ hi]
    split_ifs with hzero hpair
    · rfl
    · obtain ⟨j, hj⟩ := List.mem_iff_getElem?.1 hpair
      rw [h.table.find_some h.sound.pairs_nodup hj, ok_bind]
      dsimp only
      rw [h.table.stores.read hj, ok_bind, h.table.freq j _ hj]
      rfl
    · rw [h.table.find_none hpair]
      rfl
  · rw [h.ctx.ctxFindH_none hmem, h.sound.total_ctxs _ hmem]
    cases bloomChk g.bloom (g.window.last n) <;> rfl

/-! ## The table -/

theorem gramPredict_pos (G : Grams) (len : Nat) : 0 < gramPredict G len := by
  unfold gramPredict
  dsimp only
  split_ifs
  · norm_num
  · norm_num
  · exact lt_min (lt_max_of_lt_right (by norm_num)) one_pos

section Widths

variable {s p : ℝ} {ps : List ℝ}

theorem btV4Width_ok (hp : 0 < p) (hs : p ≤ s) : ∃ w, btV4Width rcScale s p = .ok w ∧ 3 ≤ w ∧
    (w : ℝ) ≤ (19 / 20 * (p / s) + 1 / 5120) * 2 ^ 14 := by
  have hshare : 0 ≤ p / s := div_nonneg hp.le (hp.le.trans hs)
  have hone : p / s ≤ 1 := div_le_one_of_le₀ hs (hp.le.trans hs)
  obtain ⟨x, hx⟩ : ∃ x, x = (19 / 20 * (p / s) + 1 / 5120) * 2 ^ 14 := ⟨_, rfl⟩
  have hm : ((1 - 1 / 20) * (p / s) + 1 / 20 * (1 / 256)) * (rcScale : ℝ) = x := by
    rw [hx, rcScale]
    push_cast
    ring
  have hlow : 3 ≤ x := by
    rw [hx]
    linarith
  have hhigh : x < (2 ^ 32 : Nat) := by
    rw [hx]
    push_cast
    linarith
  have hfloor : 3 ≤ ⌊x⌋₊ := Nat.le_floor (by exact_mod_cast hlow)
  refine ⟨⌊x⌋₊, ?_, hfloor, ?_⟩
  · rw [btV4Width, hm, if_pos ⟨by linarith, hhigh⟩, max_eq_left (by omega)]
    rfl
  · rw [← hx]
    exact Nat.floor_le (by linarith)

theorem mapM_btV4Width (hps : ∀ p ∈ ps, 0 < p ∧ p ≤ s) : ∃ ws,
    ps.mapM (btV4Width rcScale s) = .ok ws ∧ (∀ w ∈ ws, 3 ≤ w) ∧
      (ws.sum : ℝ) ≤ (19 / 20 * (ps.sum / s) + ps.length / 5120) * 2 ^ 14 := by
  induction ps with
  | nil => exact ⟨[], rfl, nofun, by simp⟩
  | cons p ps ih =>
    obtain ⟨hp, hs⟩ := hps p List.mem_cons_self
    obtain ⟨w, hw, hw3, hwle⟩ := btV4Width_ok hp hs
    obtain ⟨ws, hws, hws3, hsum⟩ := ih fun q hq => hps q (List.mem_cons_of_mem p hq)
    refine ⟨w :: ws, ?_, ?_, ?_⟩
    · rw [List.mapM_cons, hw, ok_bind, hws]
      rfl
    · intro x hx
      rcases List.mem_cons.1 hx with rfl | hx
      · exact hw3
      · exact hws3 x hx
    · rw [List.sum_cons, List.sum_cons, List.length_cons, add_div, Nat.cast_add, Nat.cast_add]
      rw [Nat.cast_one]
      linarith

theorem btV4Distribution_codable {p : UInt8 → ℝ} (hpos : ∀ b, 0 < p b) : ∃ cum : Cum,
    cum.Codable ∧ ∀ g, (∀ b, predictByte g b = .ok (p b)) →
      btV4Distribution g rcScale = .ok cum := by
  obtain ⟨ps, hps⟩ : ∃ ps, ps = (List.range 256).map fun b => p (UInt8.ofNat b) := ⟨_, rfl⟩
  have hmem : ∀ q ∈ ps, 0 < q := by
    intro q hq
    rw [hps] at hq
    obtain ⟨b, -, rfl⟩ := List.mem_map.1 hq
    exact hpos _
  have hlen : ps.length = 256 := by rw [hps, List.length_map, List.length_range]
  have hsum : 0 < ps.sum := List.sum_pos _ hmem (List.ne_nil_of_length_pos (by omega))
  obtain ⟨ws, hws, hws3, hle⟩ := mapM_btV4Width fun q hq =>
    ⟨hmem q hq, List.single_le_sum (fun x hx => (hmem x hx).le) q hq⟩
  rw [div_self hsum.ne', hlen] at hle
  have hwlen : ws.length = 256 := (mapM_length hws).trans hlen
  refine ⟨cumOf fun b => ws.getD b.toNat 0, cumOf_codable (fun b => ?_) ?_, fun g hg => ?_⟩
  · have hb : b.toNat < ws.length := hwlen ▸ b.toNat_lt
    rw [List.getD_eq_getElem _ _ hb]
    exact (by norm_num : 0 < 3).trans_le (hws3 _ (List.getElem_mem hb))
  · rw [widthSum_getD ws hwlen]
    have hreal : (ws.sum : ℝ) ≤ ((2 ^ 14 : Nat) : ℝ) := by
      push_cast at hle ⊢
      linarith
    exact_mod_cast hreal
  · rw [btV4Distribution, mapM_eq_map fun b _ => hg (UInt8.ofNat b), ok_bind, ← hps,
      if_neg hsum.not_ge, hws]
    rfl

end Widths

/-! ## Coding -/

/-- The model has been trained on the text, and on nothing else. -/
structure Learnt (text : List UInt8) (g : Globals) : Prop where
  represents : Represents (Tally.within btPool ctxPool (Ngram.log btMaxDepth text)) g
  window : g.window.bytes = Ngram.tail btMaxDepth text

section Coding

variable {text : List UInt8} {g : Globals} {b : UInt8} {bt : CecBT Globals}

theorem trainAll_learnt (ctxs : Nat → CtxEntry) (text : List UInt8) :
    ∃ g, btV4TrainAll text (btV4Init ctxs) = .ok g ∧ Learnt text g := by
  obtain ⟨g, hrun, hg, hw⟩ := btV4TrainAll_represents ctxs text
  exact ⟨g, hrun, hg, hw⟩

theorem Learnt.train (h : Learnt text g) (b : UInt8) :
    ∃ g', btV4Train b g = .ok g' ∧ Learnt (text ++ [b]) g' := by
  obtain ⟨g', hrun, hg', hw⟩ := h.represents.train b
  refine ⟨g', hrun, ?_, ?_⟩
  · rw [Ngram.log_concat, ← h.window, Tally.within, List.foldl_append]
    exact hg'
  · rw [hw]
    exact push_tail h.window b

/-- What is known of a byte after each end of the text. -/
def knownGrams (text : List UInt8) (b : UInt8) : Grams := fun n =>
  known (Tally.within btPool ctxPool (Ngram.log btMaxDepth text)) ((tailWindow text).last n) b

theorem Learnt.predictByte (h : Learnt text g) (b : UInt8) : V0.predictByte g b =
    .ok (gramPredict (knownGrams text b) (tailWindow text).bytes.length) := by
  have hwindow : g.window = tailWindow text := Window.eq_of_bytes h.window
  unfold knownGrams
  rw [← hwindow]
  exact predictByte_eq fun n => h.represents.predictCounts_known n b

theorem learnt_table (text : List UInt8) : ∃ cum : Cum, cum.Codable ∧
    ∀ g, Learnt text g → btV4Distribution g rcScale = .ok cum := by
  obtain ⟨cum, hcod, hrun⟩ := btV4Distribution_codable fun b =>
    gramPredict_pos (knownGrams text b) (tailWindow text).bytes.length
  exact ⟨cum, hcod, fun g h => hrun g h.predictByte⟩

/-- A coder that learns as `bt_model.c` does, and what it has learnt decides its tables. -/
structure Reference (bt : CecBT Globals) : Prop where
  table : ∀ text, ∃ cum : Cum, cum.Codable ∧
    ∀ g, Learnt text g → bt.distribution rcScale g = .ok (cum, g)
  train : bt.train = btV4Train

theorem cecDefaultBt_reference : Reference cecDefaultBt where
  table text := by
    obtain ⟨cum, hcod, hrun⟩ := learnt_table text
    exact ⟨cum, hcod, fun g h => bind_eq_ok.2 ⟨cum, hrun g h, rfl⟩⟩
  train := rfl

theorem symdistBt_reference : Reference symdistBt where
  table text := by
    obtain ⟨cum, hcod, hrun⟩ := learnt_table text
    have hrising : Rising cum := ⟨hcod.zero, fun i hi => (hcod.strict i hi).le,
      hcod.total.trans_lt (by norm_num)⟩
    obtain ⟨cum', hnorm, hexact, -⟩ := symdistNormalize_ok hrising
      (by decide : 256 ≤ rcScale) (by decide : rcScale < 2 ^ 32)
    refine ⟨cum', ⟨hexact.zero, hexact.pos, hexact.total.le⟩, fun g h => ?_⟩
    exact bind_eq_ok.2 ⟨cum, hrun g h, bind_eq_ok.2 ⟨cum', hnorm _, rfl⟩⟩
  train := rfl

theorem Reference.learns (h : Reference bt) (text : List UInt8) :
    Learns bt bt (fun past s t => Learnt past s ∧ Learnt past t) text where
  step := by
    rintro past b s t - ⟨hs, ht⟩
    obtain ⟨cum, hcod, htable⟩ := h.table past
    obtain ⟨s', htrain, hs'⟩ := hs.train b
    obtain ⟨t', htrain', ht'⟩ := ht.train b
    refine ⟨cum, s, s', t, t', hcod, htable s hs, ?_, htable t ht, ?_, hs', ht'⟩
    · rw [h.train]
      exact htrain
    · rw [h.train]
      exact htrain'

end Coding

end Bcb.V0
