import Bcb.Bt.Grams
import Bcb.RangeCoder.Economy

namespace Bcb.Bt

open Lib RangeCoder

/-- The functions that `btv3_cec_bt` returns, where no growth fails. -/
def btv3CecBt (B : Build) : CecBT Globals where
  distribution scale g := do
    let cum ← btV3DistributionR B true (g.reader B g.window) scale
    return (cum, g)
  train b g := btV3Train B (fun _ => .succeeds) b g

variable {B B' : Build} {g : Globals} {text msg : List UInt8} {b : UInt8}

/-- There is room for the text, and no count of it leaves its 32 bits. -/
structure Fits (B : Build) (text : List UInt8) : Prop where
  room : RoomFor B (Ngram.log btMaxDepth text)
  short : btMaxDepth * text.length < 2 ^ 31

theorem Fits.log_lt (h : Fits B text) : (Ngram.log btMaxDepth text).length < 2 ^ 31 :=
  (Ngram.log_length_le _ _).trans_lt h.short

theorem Fits.length_lt (h : Fits B text) : text.length < 2 ^ 27 := by
  have hshort := h.short
  simp only [btMaxDepth] at hshort
  omega

theorem Fits.begins {pre : List UInt8} (h : Fits B text) (hpre : pre <+: text) : Fits B pre := by
  obtain ⟨rest, rfl⟩ := hpre
  refine ⟨h.room.begin (Ngram.log_prefix _ _ _), ?_⟩
  have hshort := h.short
  rw [List.length_append, Nat.mul_add] at hshort
  exact (Nat.le_add_right _ _).trans_lt hshort

/-- The model has been trained on the text, and on nothing else. -/
structure Learnt (B : Build) (text : List UInt8) (g : Globals) : Prop where
  counted : Counted B (Ngram.log btMaxDepth text) g
  window : g.window.bytes = Ngram.tail btMaxDepth text
  frozen : g.frozen = false

theorem init_learnt (h : Fits B text) (pool : Nat → BtEntry) (ctxPool : Nat → CtxEntry) :
    Learnt B [] (btV3Init B pool ctxPool) :=
  ⟨init_counted h.room.sizing pool ctxPool, rfl, rfl⟩

theorem Learnt.train (h : Learnt B text g) (hfits : Fits B (text ++ [b])) :
    ∃ g', btV3Train B (fun _ => .succeeds) b g = .ok g' ∧ Learnt B (text ++ [b]) g' := by
  have hlog := Ngram.log_concat btMaxDepth text b
  rw [← h.window] at hlog
  obtain ⟨g', hrun, hg', hwindow, hfrozen⟩ :=
    h.counted.train h.frozen (hlog ▸ hfits.room) (hlog ▸ hfits.log_lt)
  refine ⟨g', hrun, hlog ▸ hg', ?_, hfrozen⟩
  rw [hwindow]
  exact push_tail h.window b

theorem trainAll_learnt (h : Fits B text) (pool : Nat → BtEntry) (ctxPool : Nat → CtxEntry) :
    ∃ g, btV3TrainAll B (fun _ _ => .succeeds) text (btV3Init B pool ctxPool) = .ok g ∧
      Learnt B text g := by
  have hloop := foldlM_ok (l := text.zipIdx) (b := btV3Init B pool ctxPool)
    (f := fun g x => btV3Train B (fun _ => .succeeds) x.1 g)
    (P := fun pre g => Learnt B (pre.map Prod.fst) g) (init_learnt h pool ctxPool) ?_
  · rwa [List.zipIdx_map_fst] at hloop
  · rintro pre ⟨b, i⟩ post hl g1 h1
    have hsplit : text = pre.map Prod.fst ++ [b] ++ post.map Prod.fst := by
      have hmap := congrArg (List.map Prod.fst) hl
      rw [List.zipIdx_map_fst] at hmap
      rw [hmap, List.map_append, List.map_cons, List.append_assoc, List.singleton_append]
    rw [List.map_append, List.map_cons, List.map_nil]
    exact h1.train (h.begins (hsplit ▸ List.prefix_append _ _))

def tailWindow (text : List UInt8) : Window where
  bytes := Ngram.tail btMaxDepth text
  length_le := by
    rw [Ngram.tail_length]
    exact min_le_right _ _

/-- The table after the text. -/
def textTable (B : Build) (text : List UInt8) : Cum :=
  logTable B (Ngram.log btMaxDepth text) (tailWindow text)

theorem Learnt.table (h : Learnt B text g) (hfits : Fits B text) :
    btV3DistributionR B true (g.reader B g.window) rcScale = .ok (textTable B text) ∧
      Ample (textTable B text) := by
  have hwindow : g.window = tailWindow text := Window.eq_of_bytes h.window
  rw [textTable, ← hwindow]
  exact h.counted.table hfits.log_lt g.window

/-- Two builds whose lookup tables have the same sizes. -/
structure SameLuts (B B' : Build) : Prop where
  presBits : B.presBits = B'.presBits
  exp2Fb : B.exp2Fb = B'.exp2Fb

theorem SameLuts.textTable (h : SameLuts B B') : textTable B text = textTable B' text := by
  have hpres : B.pres = B'.pres := congrArg (2 ^ ·) h.presBits
  have hfn : B.exp2Fn = B'.exp2Fn := congrArg (2 ^ ·) h.exp2Fb
  have hcount : countTerm B = countTerm B' := by
    funext n total f
    simp only [countTerm, defaultTerm, confIndex, confLog2, hpres]
  have hweight : expWeight B = expWeight B' := by
    funext norm
    simp only [expWeight, exp2Frac, hfn, h.exp2Fb]
  have hterms : levelTerms B = levelTerms B' := by
    funext G len lv
    simp only [levelTerms, hcount]
  have hmean : termsMean B = termsMean B' := by
    funext terms
    simp only [termsMean, weightedSum, weightTotal, hweight]
  have hstep : levelStep B = levelStep B' := by
    funext G len x lv
    rw [levelStep, levelStep, hterms, hmean]
  simp only [Bt.textTable, logTable, gramTable, gramProbs, gramProb, hstep]

theorem learns_text (hluts : SameLuts B B') (hB : Fits B text) (hB' : Fits B' text) :
    Learns (btv3CecBt B) (btv3CecBt B') (fun past s t => Learnt B past s ∧ Learnt B' past t)
      text where
  step := by
    rintro past b s t hnext ⟨hs, ht⟩
    have hpast : past <+: text := (List.prefix_append past [b]).trans hnext
    obtain ⟨hdist, hample⟩ := hs.table (hB.begins hpast)
    obtain ⟨hdist', -⟩ := ht.table (hB'.begins hpast)
    rw [← hluts.textTable] at hdist'
    obtain ⟨s', htrain, hs'⟩ := hs.train (hB.begins hnext)
    obtain ⟨t', htrain', ht'⟩ := ht.train (hB'.begins hnext)
    refine ⟨Bt.textTable B past, s, s', t, t', hample.codable, ?_, htrain, ?_, htrain', hs', ht'⟩
    · exact bind_eq_ok.2 ⟨_, hdist, rfl⟩
    · exact bind_eq_ok.2 ⟨_, hdist', rfl⟩

/-- What one process has coded while learning from it, another one that was trained on the same
corpus decodes, be its build another one of the same lookup tables and whatever its memory held
before; both have learnt the message then. -/
theorem btv3CecBt_lossless (hluts : SameLuts B B') {corpus msg : List UInt8}
    (hB : Fits B (corpus ++ msg)) (hB' : Fits B' (corpus ++ msg)) (pool pool' : Nat → BtEntry)
    (ctxPool ctxPool' : Nat → CtxEntry) :
    ∃ g g' payload s t,
      btV3TrainAll B (fun _ _ => .succeeds) corpus (btV3Init B pool ctxPool) = .ok g ∧
      btV3TrainAll B' (fun _ _ => .succeeds) corpus (btV3Init B' pool' ctxPool') = .ok g' ∧
      cecCompress (btv3CecBt B) g msg = .ok (payload, s) ∧
      payload.length ≤ 2 * msg.length + 1 ∧
      (∀ extra, cecDecompress (btv3CecBt B') g' (payload ++ extra) msg.length = .ok (msg, t)) ∧
      Learnt B (corpus ++ msg) s ∧ Learnt B' (corpus ++ msg) t := by
  have hcorpus : corpus <+: corpus ++ msg := List.prefix_append _ _
  obtain ⟨g, hrun, hg⟩ := trainAll_learnt (hB.begins hcorpus) pool ctxPool
  obtain ⟨g', hrun', hg'⟩ := trainAll_learnt (hB'.begins hcorpus) pool' ctxPool'
  have hmsg : msg.length < 2 ^ 28 := by
    have hlen := hB.length_lt
    rw [List.length_append] at hlen
    omega
  obtain ⟨payload, s, t, hcomp, hlen, ⟨hs, ht⟩, hdec⟩ :=
    (learns_text hluts hB hB').roundTrip ⟨hg, hg'⟩ hmsg
  exact ⟨g, g', payload, s, t, hrun, hrun', hcomp, hlen, hdec, hs, ht⟩

/-- The build with `BCB_POOL_BITS`. -/
def pooled (bits : Nat) : Build := ⟨.fixed bits, true, false, true⟩

theorem btv3CecBt_lossless_pooled : ∃ g g' payload s t,
    btV3TrainAll .plain (fun _ _ => .succeeds) [97, 98]
      (btV3Init .plain (fun _ => blankBt) fun _ => blankCtx) = .ok g ∧
    btV3TrainAll (pooled 12) (fun _ _ => .succeeds) [97, 98]
      (btV3Init (pooled 12) (fun _ => blankBt) fun _ => blankCtx) = .ok g' ∧
    cecCompress (btv3CecBt .plain) g [97, 99] = .ok (payload, s) ∧
    payload.length ≤ 2 * [97, 99].length + 1 ∧
    (∀ extra, cecDecompress (btv3CecBt (pooled 12)) g' (payload ++ extra) [97, 99].length =
      .ok ([97, 99], t)) ∧
    Learnt .plain ([97, 98] ++ [97, 99]) s ∧ Learnt (pooled 12) ([97, 98] ++ [97, 99]) t := by
  have hluts : SameLuts .plain (pooled 12) := ⟨rfl, rfl⟩
  have hplain : Fits .plain ([97, 98] ++ [97, 99]) := ⟨.inl rfl, by decide⟩
  have hpooled : Fits (pooled 12) ([97, 98] ++ [97, 99]) :=
    ⟨.inr ⟨by decide, by decide, by decide⟩, by decide⟩
  exact btv3CecBt_lossless hluts hplain hpooled _ _ _ _

theorem paced_learnt (B : Build) : Paced (btv3CecBt B) (btv3CecBt B) fun msg s t =>
    ∃ past, Fits B (past ++ msg) ∧ Learnt B past s ∧ Learnt B past t where
  step := by
    rintro b msg s t ⟨past, hfits, hboth⟩
    rw [List.append_cons] at hfits
    obtain ⟨cum, s1, s2, t1, t2, hcod, hdist, htrain, hdist', htrain', hboth'⟩ :=
      (learns_text ⟨rfl, rfl⟩ hfits hfits).step (List.prefix_append _ _) hboth
    exact ⟨cum, s1, s2, t1, t2, hcod, hdist, htrain, hdist', htrain', past ++ [b], hfits, hboth'⟩

/-- Whatever the model has learnt, it does not make all messages of a length shorter: their
payloads are a prefix code, and obey Kraft's inequality. -/
theorem btv3CecBt_kraft {corpus : List UInt8} {n : Nat} (hg : Learnt B corpus g)
    (hfits : ∀ msg, msg.length = n → Fits B (corpus ++ msg)) :
    ∃ payload : (Fin n → UInt8) → List UInt8,
      (∀ m, ∃ s, cecCompress (btv3CecBt B) g (List.ofFn m) = .ok (payload m, s)) ∧
      (∀ m m', payload m <+: payload m' → m = m') ∧
      ∑ m, (1 / 256 : ℝ) ^ (payload m).length ≤ 1 ∧ ∃ m, n ≤ (payload m).length := by
  have hn : n < 2 ^ 28 := by
    have hlen := (hfits (List.replicate n 0) List.length_replicate).length_lt
    rw [List.length_append, List.length_replicate] at hlen
    omega
  exact (paced_learnt B).kraft hn fun msg hmsg =>
    ⟨corpus, hfits msg hmsg, hg, hg⟩

theorem btv3CecBt_kraft_three : ∃ g, btV3TrainAll .plain (fun _ _ => .succeeds) [97, 98]
      (btV3Init .plain (fun _ => blankBt) fun _ => blankCtx) = .ok g ∧
    ∃ payload : (Fin 3 → UInt8) → List UInt8,
      (∀ m, ∃ s, cecCompress (btv3CecBt .plain) g (List.ofFn m) = .ok (payload m, s)) ∧
      (∀ m m', payload m <+: payload m' → m = m') ∧
      ∑ m, (1 / 256 : ℝ) ^ (payload m).length ≤ 1 ∧ ∃ m, 3 ≤ (payload m).length := by
  have hcorpus : Fits .plain [97, 98] := ⟨.inl rfl, by decide⟩
  obtain ⟨g, hrun, hg⟩ := trainAll_learnt hcorpus (fun _ => blankBt) fun _ => blankCtx
  refine ⟨g, hrun, btv3CecBt_kraft hg fun msg hmsg => ⟨.inl rfl, ?_⟩⟩
  rw [List.length_append, hmsg]
  decide

end Bcb.Bt
