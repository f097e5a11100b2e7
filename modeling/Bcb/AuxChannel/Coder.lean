import Bcb.AuxChannel.Codable
import Bcb.Bt.Adaptive

namespace Bcb.Aux

open Lib RangeCoder Symdist Bt

/-- `aux_dist` and `aux_train`, where no growth fails. -/
def auxCecBt (B : Build) : CecBT (Bt.Globals × Channel) where
  distribution scale x := do
    let cum ← btV3DistributionR B true (x.1.reader B x.1.window) scale
    let cum ← symdistNormalize .wrapping cum scale
    let cum ← x.2.adjust .wrapping cum scale
    return (cum, x)
  train b x := do
    let g ← btV3Train B (fun _ => .succeeds) b x.1
    let ch ← x.2.observe b
    return (g, ch)

/-- What `aux_cec_bt` does to the model and the channel. -/
def auxCecBtInit (B : Build) (pool : Nat → BtEntry) (ctxPool : Nat → CtxEntry) (ch : Channel) :
    Outcome (Bt.Globals × Channel) := do
  let ch ← ch.reset
  return (btV3Init B pool ctxPool, ch)

def auxPrime (B : Build) (corpus : List UInt8) (x : Bt.Globals × Channel) :
    Outcome (Bt.Globals × Channel) := do
  let ch ← x.2.learn corpus
  let g ← btV3TrainAll B (fun _ _ => .succeeds) corpus x.1
  return (g, ch)

theorem Exact.codable {cum : Cum} (h : Exact rcScale cum) : cum.Codable :=
  ⟨h.zero, fun i hi => h.pos i hi, h.total.le⟩

theorem rising_of_ample {cum : Cum} (h : Ample cum) : Rising cum :=
  ⟨h.zero, fun i hi => (Nat.le_add_right _ _).trans (h.width i hi), h.total.trans_lt (by norm_num)⟩

namespace State

@[simp] theorem reset_reset (s : State) : s.reset.reset = s.reset := by
  cases s <;> rfl

theorem learn_reset {s s' : State} {corpus : List UInt8} (h : s.learn corpus = .ok s') :
    s'.reset = s.reset := by
  cases s with
  | whitespacePhase s =>
    obtain ⟨s1, -, h⟩ := bind_eq_ok.1 h
    obtain rfl := Except.ok.inj h
    rfl
  | byteType s | bigramType s | casePattern s =>
    obtain rfl := Except.ok.inj h
    rfl

theorem observe_reset {s s' : State} {b : UInt8} (h : s.observe b = .ok s') :
    s'.reset = s.reset := by
  cases s with
  | whitespacePhase s =>
    obtain ⟨s1, -, h⟩ := bind_eq_ok.1 h
    obtain rfl := Except.ok.inj h
    rfl
  | byteType s | bigramType s | casePattern s =>
    obtain rfl := Except.ok.inj h
    rfl

end State

namespace Channel

variable {c c' c0 : Channel} {f : State → Outcome State}

theorem mapChildren_reset (hf : ∀ s s', f s = .ok s' → s'.reset = s.reset)
    (h : c.mapChildren f = .ok c') : c'.reset = c.reset := by
  cases c with
  | single ch =>
    obtain ⟨s, hs, h⟩ := bind_eq_ok.1 h
    obtain rfl := Except.ok.inj h
    exact congrArg (fun s => Except.ok (Channel.single ⟨ch.alphaQ16, s⟩)) (hf _ _ hs)
  | combo chs =>
    obtain ⟨chs', hmap, h⟩ := bind_eq_ok.1 h
    obtain rfl := Except.ok.inj h
    have hlist : ∀ {l l' : List AuxChannel},
        (l.mapM fun ch => do return { ch with state := ← f ch.state }) = .ok l' →
        (l'.mapM fun ch => do return { ch with state := ← pure ch.state.reset }) =
          (l.mapM fun ch => do return { ch with state := ← pure ch.state.reset } :
            Outcome (List AuxChannel)) := by
      intro l
      induction l with
      | nil =>
        intro l' h
        obtain rfl := Except.ok.inj h
        rfl
      | cons ch l ih =>
        intro l' h
        obtain ⟨ch', l1, hch, hl, rfl⟩ := mapM_cons_ok h
        obtain ⟨s, hs, hch⟩ := bind_eq_ok.1 hch
        obtain rfl := Except.ok.inj hch
        rw [List.mapM_cons, List.mapM_cons, ih hl]
        simp only [hf _ _ hs]
    exact congrArg (· >>= fun chs => pure (Channel.combo chs)) (hlist hmap)

/-- A channel like `c0`, with a corpus learnt and at most `k` bytes observed. -/
structure Ready (c0 : Channel) (k : Nat) (c : Channel) : Prop where
  within : ∀ ch ∈ c.children, ch.state.Within k
  alpha : ∀ ch ∈ c.children, ch.alphaQ16 ≤ aDen
  reset : c.reset = c0.reset

theorem Follows.alpha {P : State → Prop} (h : Follows P c c')
    (hc : ∀ ch ∈ c.children, ch.alphaQ16 ≤ aDen) : ∀ ch ∈ c'.children, ch.alphaQ16 ≤ aDen := by
  intro ch hch
  obtain ⟨ch', hch', heq⟩ := List.mem_map.1 (h.2 ▸ List.mem_map_of_mem hch)
  exact heq ▸ hc ch' hch'

theorem reset_ready (hc : ∀ ch ∈ c.children, ch.alphaQ16 ≤ aDen) (k : Nat) :
    ∃ c', c.reset = .ok c' ∧ Ready c k c' := by
  obtain ⟨c', hrun, hfollows⟩ := mapChildren_ok (c := c) (f := fun s => pure s.reset)
    (P := State.Within k) fun ch _ => ⟨_, rfl, State.reset_within ch.state k⟩
  refine ⟨c', hrun, hfollows.1, hfollows.alpha hc, mapChildren_reset ?_ hrun⟩
  rintro s _ hs
  obtain rfl := Except.ok.inj hs
  exact s.reset_reset

theorem Ready.learn {k : Nat} (h : Ready c0 k c) {corpus : List UInt8}
    (hcorpus : corpus.length < 2 ^ 30) (n : Nat) :
    ∃ c', c.learn corpus = .ok c' ∧ Ready c0 n c' := by
  obtain ⟨c', hrun, hfollows⟩ := mapChildren_ok (c := c) (P := State.Within n)
    fun ch _ => State.learn_within hcorpus ch.state n
  exact ⟨c', hrun, hfollows.1, hfollows.alpha h.alpha,
    (mapChildren_reset (fun _ _ => State.learn_reset) hrun).trans h.reset⟩

theorem Ready.observe {k : Nat} (h : Ready c0 k c) (hk : k + 1 < 2 ^ 30) (b : UInt8) :
    ∃ c', c.observe b = .ok c' ∧ Ready c0 (k + 1) c' := by
  obtain ⟨c', hrun, hfollows⟩ := mapChildren_ok (c := c) (P := State.Within (k + 1))
    fun ch hch => (h.within ch hch).observe hk b
  exact ⟨c', hrun, hfollows.1, hfollows.alpha h.alpha,
    (mapChildren_reset (fun _ _ => State.observe_reset) hrun).trans h.reset⟩

theorem Ready.table {k : Nat} (h : Ready c0 k c) {cum : Cum} (hcum : Ample cum) :
    ∃ cum1 cum2, symdistNormalize .wrapping cum rcScale = .ok cum1 ∧
      c.adjust .wrapping cum1 rcScale = .ok cum2 ∧ cum2.Codable := by
  have hlow : 256 ≤ rcScale := by norm_num [rcScale]
  obtain ⟨cum1, hnorm, hexact, -⟩ := symdistNormalize_ok (rising_of_ample hcum) hlow
    (by norm_num [rcScale])
  obtain ⟨cum2, hadjust, hexact2, -⟩ := adjust_ok h.within h.alpha hexact hlow
    (by norm_num [rcScale])
  exact ⟨cum1, cum2, hnorm _, hadjust _, Exact.codable hexact2⟩

end Channel

variable {B B' : Build} {c : Channel} {text : List UInt8}

theorem learns_text (hluts : SameLuts B B') (hB : Fits B text) (hB' : Fits B' text) :
    Learns (auxCecBt B) (auxCecBt B') (fun past x y => Learnt B past x.1 ∧ Learnt B' past y.1 ∧
      x.2 = y.2 ∧ Channel.Ready c past.length x.2) text where
  step := by
    rintro past b ⟨s, ch⟩ ⟨t, _⟩ hnext ⟨hs, ht, rfl, hch⟩
    have hpast : past <+: text := (List.prefix_append past [b]).trans hnext
    obtain ⟨hdist, hample⟩ := hs.table (hB.begins hpast)
    obtain ⟨hdist', -⟩ := ht.table (hB'.begins hpast)
    rw [← hluts.textTable] at hdist'
    obtain ⟨cum1, cum, hnorm, hadjust, hcod⟩ := hch.table hample
    obtain ⟨s', htrain, hs'⟩ := hs.train (hB.begins hnext)
    obtain ⟨t', htrain', ht'⟩ := ht.train (hB'.begins hnext)
    have hk : past.length + 1 < 2 ^ 30 := by
      have hlen := (hB.begins hnext).length_lt
      rw [List.length_append, List.length_singleton] at hlen
      omega
    obtain ⟨ch', hobserve, hch'⟩ := hch.observe hk b
    refine ⟨cum, (s, ch), (s', ch'), (t, ch), (t', ch'), hcod, ?_, ?_, ?_, ?_, hs', ht', rfl, ?_⟩
    · simp only [auxCecBt, hdist, ok_bind, hnorm, hadjust]
      rfl
    · simp only [auxCecBt, htrain, ok_bind, hobserve]
      rfl
    · simp only [auxCecBt, hdist', ok_bind, hnorm, hadjust]
      rfl
    · simp only [auxCecBt, htrain', ok_bind, hobserve]
      rfl
    · rw [List.length_append, List.length_singleton]
      exact hch'

theorem primed (h : Fits B text) (hc : ∀ ch ∈ c.children, ch.alphaQ16 ≤ aDen)
    (pool : Nat → BtEntry) (ctxPool : Nat → CtxEntry) :
    ∃ c0 c1 g, c.reset = .ok c0 ∧ c0.learn text = .ok c1 ∧
      (auxCecBtInit B pool ctxPool c >>= auxPrime B text) = .ok (g, c1) ∧ Learnt B text g ∧
      Channel.Ready c text.length c1 := by
  have hlen : text.length < 2 ^ 30 := h.length_lt.trans (by norm_num)
  obtain ⟨c0, hreset, hc0⟩ := Channel.reset_ready hc 0
  obtain ⟨c1, hlearn, hc1⟩ := hc0.learn hlen text.length
  obtain ⟨g, htrain, hg⟩ := trainAll_learnt h pool ctxPool
  refine ⟨c0, c1, g, hreset, hlearn, ?_, hg, hc1⟩
  simp only [auxCecBtInit, hreset, ok_bind, pure_bind, auxPrime, hlearn, htrain]
  rfl

/-- What has been coded with a channel is decoded with any channel of the same kinds and alphas,
such as that channel itself after the coding, in whatever states the two have been before. -/
theorem auxCecBt_lossless (hluts : SameLuts B B') {c' : Channel} (hkind : c'.reset = c.reset)
    (hc : ∀ ch ∈ c.children, ch.alphaQ16 ≤ aDen) (hc' : ∀ ch ∈ c'.children, ch.alphaQ16 ≤ aDen)
    {corpus msg : List UInt8} (hB : Fits B (corpus ++ msg)) (hB' : Fits B' (corpus ++ msg))
    (pool pool' : Nat → BtEntry) (ctxPool ctxPool' : Nat → CtxEntry) :
    ∃ x y payload s t, (auxCecBtInit B pool ctxPool c >>= auxPrime B corpus) = .ok x ∧
      (auxCecBtInit B' pool' ctxPool' c' >>= auxPrime B' corpus) = .ok y ∧
      cecCompress (auxCecBt B) x msg = .ok (payload, s) ∧ payload.length ≤ 2 * msg.length + 1 ∧
      (∀ extra, cecDecompress (auxCecBt B') y (payload ++ extra) msg.length = .ok (msg, t)) ∧
      s.2 = t.2 ∧ s.2.reset = c.reset ∧ (∀ ch ∈ s.2.children, ch.alphaQ16 ≤ aDen) := by
  have hcorpus : corpus <+: corpus ++ msg := List.prefix_append _ _
  obtain ⟨c0, c1, g, hreset, hlearn, hrun, hg, hc1⟩ := primed (hB.begins hcorpus) hc pool ctxPool
  obtain ⟨c0', c1', g', hreset', hlearn', hrun', hg', -⟩ :=
    primed (hB'.begins hcorpus) hc' pool' ctxPool'
  obtain rfl := Except.ok.inj (hreset.symm.trans (hkind.symm.trans hreset'))
  obtain rfl := Except.ok.inj (hlearn.symm.trans hlearn')
  have hmsg : msg.length < 2 ^ 28 := by
    have hlen := hB.length_lt
    rw [List.length_append] at hlen
    omega
  obtain ⟨payload, s, t, hcomp, hlen, ⟨-, -, hch, hready⟩, hdec⟩ :=
    (learns_text (c := c) hluts hB hB').roundTrip (s := (g, c1)) (t := (g', c1))
      ⟨hg, hg', rfl, hc1⟩ hmsg
  exact ⟨(g, c1), (g', c1), payload, s, t, hrun, hrun', hcomp, hlen, hdec, hch, hready.reset,
    hready.alpha⟩

theorem auxCecBt_lossless_combo : ∃ x y payload s t,
    (auxCecBtInit .plain (fun _ => blankBt) (fun _ => blankCtx)
      (auxComboNew [⟨64553, .byteType btReset⟩, ⟨0, .whitespacePhase wsReset⟩]) >>=
        auxPrime .plain [97, 32]) = .ok x ∧
    (auxCecBtInit (pooled 12) (fun _ => blankBt) (fun _ => blankCtx)
      (auxComboNew [⟨64553, .byteType (btLearn [65, 10])⟩, ⟨0, .whitespacePhase ⟨.zero, 9⟩⟩]) >>=
        auxPrime (pooled 12) [97, 32]) = .ok y ∧
    cecCompress (auxCecBt .plain) x [98, 97] = .ok (payload, s) ∧
    payload.length ≤ 2 * [98, 97].length + 1 ∧
    (∀ extra, cecDecompress (auxCecBt (pooled 12)) y (payload ++ extra) [98, 97].length =
      .ok ([98, 97], t)) ∧
    s.2 = t.2 ∧ s.2.reset = (auxComboNew [⟨64553, .byteType btReset⟩,
      ⟨0, .whitespacePhase wsReset⟩]).reset ∧ ∀ ch ∈ s.2.children, ch.alphaQ16 ≤ aDen := by
  have hluts : SameLuts .plain (pooled 12) := ⟨rfl, rfl⟩
  have hplain : Fits .plain ([97, 32] ++ [98, 97]) := ⟨.inl rfl, by decide⟩
  have hpooled : Fits (pooled 12) ([97, 32] ++ [98, 97]) :=
    ⟨.inr ⟨by decide, by decide, by decide⟩, by decide⟩
  refine auxCecBt_lossless hluts rfl ?_ ?_ hplain hpooled _ _ _ _
  · simp [auxComboNew, Channel.children, aDen]
  · simp [auxComboNew, Channel.children, aDen]

end Bcb.Aux
