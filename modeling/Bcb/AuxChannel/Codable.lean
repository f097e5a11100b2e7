import Bcb.AuxChannel.Defs

namespace Bcb.Aux

open RangeCoder Bt Symdist

variable {κ β : Type} {scale alpha n k : Nat} {cum : Cum} {priorW : UInt8 → Nat}

/-! ## The blend -/

theorem forBytes_exists {f : Words → UInt8 → Outcome Nat} {P : UInt8 → Nat → Prop}
    (h : ∀ b, ∃ v, (∀ W, f W b = .ok v) ∧ P b v) :
    ∃ g, (∀ W, forBytes (f W) = .ok g) ∧ ∀ b, P b (g b) := by
  choose g hg hP using h
  exact ⟨g, fun W => forBytes_ok fun b => hg b W, hP⟩

theorem blended_ok {wbt prior : Nat} (hpos : 0 < scale) (hscale : scale < 2 ^ 24)
    (halpha : alpha ≤ aDen) (hwbt : wbt ≤ scale) (hprior : prior ≤ scale) :
    ∃ v, (∀ W, blended W scale scale alpha wbt prior = .ok v) ∧ v ≤ scale ∧
      (alpha = aDen → v = wbt) := by
  have hden : aDen = 2 ^ 16 := rfl
  have hmul : wbt * scale ≤ 2 ^ 24 * 2 ^ 24 := Nat.mul_le_mul (hwbt.trans hscale.le) hscale.le
  have hfirst : alpha * wbt ≤ alpha * scale := Nat.mul_le_mul_left _ hwbt
  have hsecond : (aDen - alpha) * prior ≤ (aDen - alpha) * scale := Nat.mul_le_mul_left _ hprior
  have hsum : alpha * scale + (aDen - alpha) * scale = aDen * scale := by
    rw [← Nat.add_mul, Nat.add_sub_cancel' halpha]
  have htotal : aDen * scale < 2 ^ 64 := by
    rw [hden]
    omega
  refine ⟨(alpha * wbt + (aDen - alpha) * prior) / aDen, fun W => ?_, ?_, fun h => ?_⟩
  · simp only [blended, W.u64_of_lt (show wbt * scale < 2 ^ 64 by omega), ok_bind,
      Nat.mul_div_cancel _ hpos, W.u64_of_lt (show alpha * wbt < 2 ^ 64 by omega),
      W.sub32_of_le halpha (by norm_num [hden]),
      W.u64_of_lt (show (aDen - alpha) * prior < 2 ^ 64 by omega),
      W.u64_of_lt (show alpha * wbt + (aDen - alpha) * prior < 2 ^ 64 by omega)]
    rfl
  · apply Nat.div_le_of_le_mul
    omega
  · rw [h, Nat.sub_self, Nat.zero_mul, Nat.add_zero]
    exact Nat.mul_div_cancel_left _ (by norm_num [hden])

/-- A blend with any prior that fits the scale is exact again, and with `alpha` 1.0 nothing
changes. -/
theorem blendInto_ok (h : Exact scale cum) (hscale : 256 ≤ scale) (hscale' : scale < 2 ^ 24)
    (halpha : alpha ≤ aDen) (hprior : ∀ b, priorW b ≤ scale) :
    ∃ cum', (∀ W, blendInto W cum scale alpha priorW = .ok cum') ∧ Exact scale cum' ∧
      (alpha = aDen → cum' = cum) := by
  have hmono := h.rising (hscale'.trans (by norm_num))
  have hne : cum 256 ≠ 0 := by
    rw [h.total]
    omega
  obtain ⟨nw, hnw, hle⟩ := forBytes_exists (P := fun b v => v ≤ scale ∧
      (alpha = aDen → v = cum (b.toNat + 1) - cum b.toNat))
    (f := fun W b => do
      let wbt ← W.sub32 (cum (b.toNat + 1)) (cum b.toNat)
      W.u32 (← blended W (cum 256) scale alpha wbt (priorW b))) (by
    intro b
    have hb : b.toNat < 256 := b.toNat_lt
    have hcum : cum (b.toNat + 1) ≤ scale := h.total ▸ hmono.le hb le_rfl
    obtain ⟨v, hv, hvle, hvsame⟩ := blended_ok (by omega) hscale' halpha
      ((Nat.sub_le _ (cum b.toNat)).trans hcum) (hprior b)
    refine ⟨v, fun W => ?_, hvle, hvsame⟩
    rw [W.sub32_of_le (hmono.mono _ hb) (by omega), ok_bind, h.total, hv, ok_bind,
      W.u32_of_lt (by omega)])
  have hsum : widthSum nw 256 ≤ 256 * scale := by
    calc widthSum nw 256 ≤ ∑ _b ∈ Finset.range 256, scale :=
          Finset.sum_le_sum fun b _ => (hle _).1
      _ = 256 * scale := by simp
  have hnc : ∀ W : Words, accumulate W.u32 W.u64 cum nw =
      .ok fun i => if i < 257 then widthSum nw i else cum i := fun W =>
    accumulate_ok (fun x hx => W.u32_of_lt (by omega)) fun x hx => W.u64_of_lt (by omega)
  have hmono' : Rising fun i => if i < 257 then widthSum nw i else cum i := by
    refine ⟨rfl, fun i hi => ?_, ?_⟩
    · rw [if_pos (by omega), if_pos (by omega)]
      exact widthSum_mono nw (Nat.le_succ i)
    · rw [if_pos (by norm_num)]
      omega
  obtain ⟨cum', hrun, hexact, hsame⟩ :=
    symdistNormalize_ok hmono' hscale (hscale'.trans (by norm_num))
  refine ⟨cum', fun W => ?_, hexact, fun ha => ?_⟩
  · simp only [blendInto, if_neg hne, hnw W, ok_bind, hnc W, hrun W]
  · have heq : (fun i => if i < 257 then widthSum nw i else cum i) = cum := by
      funext i
      split_ifs with hi
      · rw [funext fun b => (hle b).2 ha]
        exact widthSum_diff h.zero hmono.mono (by omega)
      · rfl
    rw [heq] at hsame
    exact hsame h

theorem part_ok {m tot : UInt32} {other : Nat} (hle : m.toNat ≤ tot.toNat)
    (hscale : scale < 2 ^ 24) (hother : other ≤ scale) :
    ∃ v, (∀ W, part W scale m tot other = .ok v) ∧ v ≤ scale := by
  by_cases htot : tot = 0
  · exact ⟨other, fun W => if_pos htot, hother⟩
  · have hlt := m.toNat_lt
    have hmul : scale * m.toNat ≤ 2 ^ 24 * 2 ^ 32 := Nat.mul_le_mul hscale.le hlt.le
    have hdiv : scale * m.toNat / tot.toNat ≤ scale := by
      apply Nat.div_le_of_le_mul
      rw [Nat.mul_comm]
      exact Nat.mul_le_mul_right _ hle
    refine ⟨scale * m.toNat / tot.toNat, fun W => ?_, hdiv⟩
    rw [part, if_neg htot, W.u64_of_lt (by omega), ok_bind, W.u32_of_lt (by omega)]

/-! ## The counts -/

/-- No count exceeds its total, and no total exceeds `n`. -/
def Counter.Within (n : Nat) (c : Counter κ β) : Prop :=
  ∀ k, (c.tot k).toNat ≤ n ∧ ∀ b, (c.cnt k b).toNat ≤ (c.tot k).toNat

namespace Counter

theorem Within.mono {c : Counter κ β} {m : Nat} (h : c.Within n) (hle : n ≤ m) : c.Within m :=
  fun k => ⟨(h k).1.trans hle, (h k).2⟩

theorem zero_within (n : Nat) : (zero : Counter κ β).Within n :=
  fun _ => ⟨Nat.zero_le n, fun _ => le_rfl⟩

variable [DecidableEq κ] [DecidableEq β]

theorem Within.bump {c : Counter κ β} (h : c.Within n) (hn : n + 1 < 2 ^ 32) (k : κ) (b : β) :
    (c.bump k b).Within (n + 1) := by
  intro k'
  obtain ⟨htot, hcnt⟩ := h k'
  by_cases hk : k' = k
  · subst hk
    have hnew : (c.tot k' + 1).toNat = (c.tot k').toNat + 1 := by
      rw [UInt32.toNat_add]
      exact Nat.mod_eq_of_lt (by change _ + 1 < _; omega)
    have hold : (c.cnt k' b + 1).toNat = (c.cnt k' b).toNat + 1 := by
      have hle := hcnt b
      rw [UInt32.toNat_add]
      exact Nat.mod_eq_of_lt (by change _ + 1 < _; omega)
    simp only [Counter.bump, Function.update_self, hnew]
    refine ⟨by omega, fun b' => ?_⟩
    have hle := hcnt b
    have hle' := hcnt b'
    rw [Function.update_apply]
    split_ifs
    · omega
    · omega
  · simp only [Counter.bump, Function.update_of_ne hk]
    exact ⟨htot.trans (Nat.le_succ n), hcnt⟩

end Counter

theorem foldl_counted {σ : Type} {f : σ → UInt8 → σ} {P : Nat → σ → Prop} {l : List UInt8} {x : σ}
    (h0 : P 0 x) (hstep : ∀ n < l.length, ∀ x b, P n x → P (n + 1) (f x b)) :
    P l.length (l.foldl f x) := by
  induction l using List.reverseRecOn with
  | nil => exact h0
  | append_singleton l b ih =>
    rw [List.length_append, List.length_singleton] at hstep ⊢
    rw [List.foldl_append]
    exact hstep l.length (Nat.lt_succ_self _) _ b (ih fun n hn => hstep n (Nat.lt_succ_of_lt hn))

theorem classLearn_within [DecidableEq κ] (cls : UInt8 → κ) (start : κ) {corpus : List UInt8}
    (hlen : corpus.length < 2 ^ 32) :
    (classLearn cls start corpus).trans.Within corpus.length ∧
      (classLearn cls start corpus).bytecnt.Within corpus.length := by
  refine foldl_counted (x := (classReset start, none))
    (f := fun x b => (classCount cls x.1 x.2 b, some (cls b)))
    (P := fun n x => x.1.trans.Within n ∧ x.1.bytecnt.Within n)
    ⟨Counter.zero_within 0, Counter.zero_within 0⟩ ?_
  rintro n hn ⟨s, prev⟩ b ⟨htrans, hbyte⟩
  refine ⟨?_, hbyte.bump (by omega) _ _⟩
  cases prev with
  | none => exact htrans.mono (Nat.le_succ n)
  | some p => exact htrans.bump (by omega) _ _

theorem bgLearn_within {corpus : List UInt8} (hlen : corpus.length < 2 ^ 32) :
    (bgLearn corpus).trans2.Within corpus.length ∧
      (bgLearn corpus).bytecnt.Within corpus.length := by
  refine foldl_counted (x := (bgReset, none, none))
    (f := fun x b => (bgCount x.1 x.2.1 x.2.2 b, x.2.2, some (byteType b)))
    (P := fun n x => x.1.trans2.Within n ∧ x.1.bytecnt.Within n)
    ⟨Counter.zero_within 0, Counter.zero_within 0⟩ ?_
  rintro n hn ⟨s, pt2, pt1⟩ b ⟨htrans, hbyte⟩
  refine ⟨?_, hbyte.bump (by omega) _ _⟩
  cases pt2 with
  | none => exact htrans.mono (Nat.le_succ n)
  | some p2 =>
    cases pt1 with
    | none => exact htrans.mono (Nat.le_succ n)
    | some p1 => exact htrans.bump (by omega) _ _

theorem nextPhase_ok {phase : Nat} (h : phase + 1 < 2 ^ 31) (b : UInt8) :
    ∃ phase', nextPhase phase b = .ok phase' ∧ phase' ≤ phase + 1 := by
  unfold nextPhase
  split_ifs
  · exact ⟨0, rfl, Nat.zero_le _⟩
  · exact ⟨phase + 1, rfl, le_rfl⟩

theorem wsLearn_ok {corpus : List UInt8} (hlen : corpus.length < 2 ^ 31) :
    ∃ s, wsLearn corpus = .ok s ∧ s.bytecnt.Within corpus.length ∧ s.phase ≤ corpus.length := by
  refine foldlM_ok (l := corpus) (b := wsReset) (f := fun s b => do
      let bytecnt := s.bytecnt.bump (cappedPhase s.phase) b
      return ⟨bytecnt, ← nextPhase s.phase b⟩)
    (P := fun pre s => s.bytecnt.Within pre.length ∧ s.phase ≤ pre.length) ?_ ?_
  · exact ⟨Counter.zero_within 0, le_rfl⟩
  · rintro pre b post rfl s ⟨hcnt, hphase⟩
    rw [List.length_append, List.length_cons] at hlen
    obtain ⟨phase', hnext, hle⟩ := nextPhase_ok (show s.phase + 1 < 2 ^ 31 by omega) b
    refine ⟨⟨s.bytecnt.bump (cappedPhase s.phase) b, phase'⟩, ?_, ?_, ?_⟩
    · rw [hnext]
      rfl
    · rw [List.length_append, List.length_singleton]
      exact hcnt.bump (by omega) _ _
    · rw [List.length_append, List.length_singleton]
      exact hle.trans (Nat.add_le_add_right hphase 1)

/-! ## Channels -/

/-- A state after a corpus of less than `2^30` bytes and `k` bytes observed. -/
def State.Within (k : Nat) : State → Prop
  | .byteType s => s.trans.Within (2 ^ 30) ∧ s.bytecnt.Within (2 ^ 30)
  | .bigramType s => s.trans2.Within (2 ^ 30) ∧ s.bytecnt.Within (2 ^ 30)
  | .casePattern s => s.trans.Within (2 ^ 30) ∧ s.bytecnt.Within (2 ^ 30)
  | .whitespacePhase s => s.bytecnt.Within (2 ^ 30) ∧ s.phase ≤ 2 ^ 30 + k

namespace State

variable {s : State}

theorem reset_within (s : State) (k : Nat) : s.reset.Within k := by
  cases s with
  | byteType s => exact ⟨Counter.zero_within _, Counter.zero_within _⟩
  | bigramType s => exact ⟨Counter.zero_within _, Counter.zero_within _⟩
  | casePattern s => exact ⟨Counter.zero_within _, Counter.zero_within _⟩
  | whitespacePhase s => exact ⟨Counter.zero_within _, Nat.zero_le _⟩

theorem learn_within {corpus : List UInt8} (hlen : corpus.length < 2 ^ 30) (s : State) (k : Nat) :
    ∃ s', s.learn corpus = .ok s' ∧ s'.Within k := by
  cases s with
  | byteType s =>
    obtain ⟨htrans, hbyte⟩ := classLearn_within Aux.byteType .space (hlen.trans (by norm_num))
    exact ⟨_, rfl, htrans.mono hlen.le, hbyte.mono hlen.le⟩
  | bigramType s =>
    obtain ⟨htrans, hbyte⟩ := bgLearn_within (hlen.trans (by norm_num))
    exact ⟨_, rfl, htrans.mono hlen.le, hbyte.mono hlen.le⟩
  | casePattern s =>
    obtain ⟨htrans, hbyte⟩ := classLearn_within Aux.caseClass .nonLetter (hlen.trans (by norm_num))
    exact ⟨_, rfl, htrans.mono hlen.le, hbyte.mono hlen.le⟩
  | whitespacePhase s =>
    obtain ⟨s', hs', hcnt, hphase⟩ := wsLearn_ok (hlen.trans (by norm_num))
    refine ⟨.whitespacePhase s', ?_, hcnt.mono hlen.le, by omega⟩
    rw [learn, hs']
    rfl

theorem Within.observe (h : s.Within k) (hk : k + 1 < 2 ^ 30) (b : UInt8) :
    ∃ s', s.observe b = .ok s' ∧ s'.Within (k + 1) := by
  cases s with
  | byteType s => exact ⟨_, rfl, h⟩
  | bigramType s => exact ⟨_, rfl, h⟩
  | casePattern s => exact ⟨_, rfl, h⟩
  | whitespacePhase s =>
    obtain ⟨hcnt, hphase⟩ := h
    obtain ⟨phase', hnext, hle⟩ := nextPhase_ok (show s.phase + 1 < 2 ^ 31 by omega) b
    refine ⟨.whitespacePhase { s with phase := phase' }, ?_, hcnt, by simp only; omega⟩
    rw [State.observe, wsObserve, hnext]
    rfl

end State

theorem classPrior_ok [DecidableEq κ] {ι : Type} (cls : UInt8 → κ) (nClasses : Nat) {m m' : Nat}
    {trans : Counter ι κ} {bytecnt : Counter κ UInt8} (htrans : trans.Within m)
    (hbyte : bytecnt.Within m') (hscale : scale < 2 ^ 24) (i : ι) :
    ∃ priorW, (∀ W, classPrior W cls nClasses scale trans i bytecnt = .ok priorW) ∧
      ∀ b, priorW b ≤ scale := by
  apply forBytes_exists (P := fun _ v => v ≤ scale)
  intro b
  obtain ⟨pt, hpt, hle⟩ := part_ok ((htrans i).2 (cls b)) hscale (Nat.div_le_self scale nClasses)
  obtain ⟨v, hv, hle'⟩ := part_ok ((hbyte (cls b)).2 b) (hle.trans_lt hscale) (Nat.zero_le pt)
  exact ⟨v, fun W => by rw [hpt, ok_bind, hv], hle'.trans hle⟩

theorem AuxChannel.adjust_ok {ch : AuxChannel} (hch : ch.state.Within k)
    (halpha : ch.alphaQ16 ≤ aDen) (h : Exact scale cum) (hscale : 256 ≤ scale)
    (hscale' : scale < 2 ^ 24) :
    ∃ cum', (∀ W, ch.adjust W cum scale = .ok cum') ∧ Exact scale cum' ∧
      (ch.alphaQ16 = aDen → cum' = cum) := by
  have hblend : ∀ priorW : UInt8 → Nat, (∀ b, priorW b ≤ scale) →
      ∃ cum', (∀ W, blendInto W cum scale ch.alphaQ16 priorW = .ok cum') ∧ Exact scale cum' ∧
        (ch.alphaQ16 = aDen → cum' = cum) := fun priorW hprior =>
    blendInto_ok h hscale hscale' halpha hprior
  obtain ⟨alpha, s⟩ := ch
  cases s with
  | byteType s =>
    obtain ⟨priorW, hrun, hle⟩ := classPrior_ok byteType nTypes hch.1 hch.2
      hscale' s.prev
    obtain ⟨cum', hrun', hcum'⟩ := hblend priorW hle
    refine ⟨cum', fun W => ?_, hcum'⟩
    change classAdjust W byteType nTypes s alpha cum scale = _
    rw [classAdjust, hrun, ok_bind, hrun']
  | bigramType s =>
    obtain ⟨priorW, hrun, hle⟩ := classPrior_ok byteType nTypes hch.1 hch.2
      hscale' (s.pt2, s.pt1)
    obtain ⟨cum', hrun', hcum'⟩ := hblend priorW hle
    refine ⟨cum', fun W => ?_, hcum'⟩
    change bgAdjust W s alpha cum scale = _
    rw [bgAdjust, hrun, ok_bind, hrun']
  | casePattern s =>
    obtain ⟨priorW, hrun, hle⟩ := classPrior_ok caseClass nCase hch.1 hch.2
      hscale' s.prev
    obtain ⟨cum', hrun', hcum'⟩ := hblend priorW hle
    refine ⟨cum', fun W => ?_, hcum'⟩
    change classAdjust W caseClass nCase s alpha cum scale = _
    rw [classAdjust, hrun, ok_bind, hrun']
  | whitespacePhase s =>
    obtain ⟨priorW, hrun, hle⟩ := forBytes_exists (P := fun _ v => v ≤ scale)
      (f := fun W b => part W scale (s.bytecnt.cnt (cappedPhase s.phase) b)
        (s.bytecnt.tot (cappedPhase s.phase)) (scale / 256)) fun b =>
      part_ok ((hch.1 (cappedPhase s.phase)).2 b) hscale' (Nat.div_le_self _ _)
    obtain ⟨cum', hrun', hcum'⟩ := hblend priorW hle
    refine ⟨cum', fun W => ?_, hcum'⟩
    change wsAdjust W s alpha cum scale = _
    rw [wsAdjust, hrun, ok_bind, hrun']

namespace Channel

variable {c : Channel} {f : State → Outcome State} {P : State → Prop}

/-- A channel whose children have these states and the alphas of `c`. -/
def Follows (P : State → Prop) (c c' : Channel) : Prop :=
  (∀ ch ∈ c'.children, P ch.state) ∧
    c'.children.map AuxChannel.alphaQ16 = c.children.map AuxChannel.alphaQ16

theorem mapChildren_ok (h : ∀ ch ∈ c.children, ∃ s, f ch.state = .ok s ∧ P s) :
    ∃ c', c.mapChildren f = .ok c' ∧ Follows P c c' := by
  cases c with
  | single ch =>
    obtain ⟨s, hs, hP⟩ := h ch List.mem_cons_self
    refine ⟨.single { ch with state := s }, ?_, ?_, rfl⟩
    · rw [mapChildren, hs]
      rfl
    · intro ch' hch'
      rw [List.mem_singleton.1 hch']
      exact hP
  | combo chs =>
    have hlist : ∀ l : List AuxChannel, (∀ ch ∈ l, ∃ s, f ch.state = .ok s ∧ P s) →
        ∃ l', (l.mapM fun ch => do return { ch with state := ← f ch.state }) = .ok l' ∧
          (∀ ch ∈ l', P ch.state) ∧ l'.map AuxChannel.alphaQ16 = l.map AuxChannel.alphaQ16 := by
      intro l
      induction l with
      | nil => exact fun _ => ⟨[], rfl, fun ch hch => (by cases hch), rfl⟩
      | cons ch l ih =>
        intro hl
        obtain ⟨s, hs, hP⟩ := hl ch List.mem_cons_self
        obtain ⟨l', hl', hP', hmap⟩ := ih fun ch hch => hl ch (List.mem_cons_of_mem _ hch)
        refine ⟨{ ch with state := s } :: l', ?_, ?_, ?_⟩
        · rw [List.mapM_cons, hs, hl']
          rfl
        · intro ch' hch'
          rcases List.mem_cons.1 hch' with rfl | hch'
          · exact hP
          · exact hP' ch' hch'
        · rw [List.map_cons, List.map_cons, hmap]
    obtain ⟨chs', hrun, hfollows⟩ := hlist chs h
    refine ⟨.combo chs', ?_, hfollows⟩
    rw [mapChildren, hrun]
    rfl

/-- A new channel: its children are as `reset` leaves them, with an alpha from 0 to 1.0. -/
structure Fresh (c : Channel) : Prop where
  state : ∀ ch ∈ c.children, ch.state = ch.state.reset
  alpha : ∀ ch ∈ c.children, ch.alphaQ16 ≤ aDen

theorem run_ok (hc : c.Fresh) {calls : List Call}
    (hlearn : ∀ corpus, .learn corpus ∈ calls → corpus.length < 2 ^ 30)
    (hobserve : calls.countP Call.isObserve < 2 ^ 30) :
    ∃ c', calls.foldlM Call.run c = .ok c' ∧
      Follows (State.Within (calls.countP Call.isObserve)) c c' := by
  refine foldlM_ok (P := fun pre c' => Follows (State.Within (pre.countP Call.isObserve)) c c')
    ⟨fun ch hch => ?_, rfl⟩ ?_
  · rw [hc.state ch hch]
    exact State.reset_within _ _
  · rintro pre call post hcalls c1 ⟨h1, hmap⟩
    have hmem : call ∈ calls := by
      rw [hcalls]
      exact List.mem_append_right pre List.mem_cons_self
    have hcount : (pre ++ [call]).countP Call.isObserve ≤ calls.countP Call.isObserve := by
      rw [hcalls, List.countP_append, List.countP_append, List.countP_cons, List.countP_cons,
        List.countP_nil]
      omega
    have hstep : ∃ c2, Call.run c1 call = .ok c2 ∧
        Follows (State.Within ((pre ++ [call]).countP Call.isObserve)) c1 c2 := by
      cases call with
      | learn corpus => exact mapChildren_ok fun ch _ => State.learn_within (hlearn corpus hmem) _ _
      | reset =>
        exact mapChildren_ok (f := fun s => pure s.reset)
          fun ch _ => ⟨_, rfl, State.reset_within ch.state _⟩
      | observe b =>
        have hsucc : (pre ++ [Call.observe b]).countP Call.isObserve =
            pre.countP Call.isObserve + 1 := by
          rw [List.countP_append]
          rfl
        rw [hsucc] at hcount ⊢
        exact mapChildren_ok fun ch hch => (h1 ch hch).observe (by omega) b
    obtain ⟨c2, hrun, h2, hmap2⟩ := hstep
    exact ⟨c2, hrun, h2, hmap2.trans hmap⟩

theorem adjust_ok (hc : ∀ ch ∈ c.children, ch.state.Within k)
    (halpha : ∀ ch ∈ c.children, ch.alphaQ16 ≤ aDen) (h : Exact scale cum) (hscale : 256 ≤ scale)
    (hscale' : scale < 2 ^ 24) :
    ∃ cum', (∀ W, c.adjust W cum scale = .ok cum') ∧ Exact scale cum' ∧
      ((∀ ch ∈ c.children, ch.alphaQ16 = aDen) → cum' = cum) := by
  unfold adjust
  generalize c.children = l at hc halpha
  induction l generalizing cum with
  | nil => exact ⟨cum, fun W => rfl, h, fun _ => rfl⟩
  | cons ch l ih =>
    obtain ⟨cum1, hrun1, hexact1, hsame1⟩ := AuxChannel.adjust_ok (hc ch List.mem_cons_self)
      (halpha ch List.mem_cons_self) h hscale hscale'
    obtain ⟨cum', hrun, hexact, hsame⟩ :=
      ih hexact1 (fun ch hch => hc ch (List.mem_cons_of_mem _ hch))
      fun ch hch => halpha ch (List.mem_cons_of_mem _ hch)
    refine ⟨cum', fun W => ?_, hexact, fun hall => ?_⟩
    · rw [List.foldlM_cons, hrun1, ok_bind, hrun]
    · rw [hsame fun ch hch => hall ch (List.mem_cons_of_mem _ hch),
        hsame1 (hall ch List.mem_cons_self)]

theorem adjust_checked (hc : ∀ ch ∈ c.children, ch.state.Within k)
    (halpha : ∀ ch ∈ c.children, ch.alphaQ16 ≤ aDen) (h : Exact scale cum) (hscale : 256 ≤ scale)
    (hscale' : scale < 2 ^ 24) :
    ∃ cum', c.adjust .checked cum scale = .ok cum' ∧ c.adjust .wrapping cum scale = .ok cum' := by
  obtain ⟨cum', hrun, -⟩ := adjust_ok hc halpha h hscale hscale'
  exact ⟨cum', hrun .checked, hrun .wrapping⟩

end Channel

/-- A channel or a combination of channels, after any calls, adjusts an exact table to an exact
table; no step wraps around, and with every alpha at 1.0 the table stays as it is. -/
theorem adjust_exact {c : Channel} (hc : c.Fresh) {calls : List Call}
    (hlearn : ∀ corpus, .learn corpus ∈ calls → corpus.length < 2 ^ 30)
    (hobserve : calls.countP Call.isObserve < 2 ^ 30) (h : Exact rcScale cum) :
    ∃ c', calls.foldlM Call.run c = .ok c' ∧
      ∃ cum', (∀ W, c'.adjust W cum rcScale = .ok cum') ∧ Exact rcScale cum' ∧
        ((∀ ch ∈ c.children, ch.alphaQ16 = aDen) → cum' = cum) := by
  obtain ⟨c', hrun, hwithin, halpha⟩ := Channel.run_ok hc hlearn hobserve
  have hmem : ∀ {P : Nat → Prop}, (∀ ch ∈ c.children, P ch.alphaQ16) →
      ∀ ch ∈ c'.children, P ch.alphaQ16 := by
    intro P hP ch hch
    obtain ⟨ch', hch', heq⟩ := List.mem_map.1 (halpha ▸ List.mem_map_of_mem hch)
    exact heq ▸ hP ch' hch'
  have hle : ∀ ch ∈ c'.children, ch.alphaQ16 ≤ aDen := hmem (P := (· ≤ aDen)) hc.alpha
  obtain ⟨cum', hadjust, hexact, hsame⟩ := Channel.adjust_ok hwithin hle h
    (by norm_num [rcScale]) (by norm_num [rcScale])
  exact ⟨c', hrun, cum', hadjust, hexact, fun hall => hsame (hmem (P := (· = aDen)) hall)⟩

theorem adjust_exact_combo : ∃ c',
    [Call.learn [0x61, 0x20, 0x41], .observe 0x62].foldlM Call.run
        (auxComboNew [⟨64553, .byteType btReset⟩, ⟨0, .bigramType bgReset⟩,
          ⟨32768, .casePattern csReset⟩, ⟨65536, .whitespacePhase wsReset⟩]) = .ok c' ∧
      ∃ cum', (∀ W, c'.adjust W (fun i => 64 * i) rcScale = .ok cum') ∧ Exact rcScale cum' ∧
        ((∀ ch ∈ (auxComboNew [⟨64553, .byteType btReset⟩, ⟨0, .bigramType bgReset⟩,
          ⟨32768, .casePattern csReset⟩, ⟨65536, .whitespacePhase wsReset⟩]).children,
            ch.alphaQ16 = aDen) → cum' = fun i => 64 * i) := by
  refine adjust_exact ⟨?_, ?_⟩ ?_ (by decide) ⟨rfl, fun i _ => by omega, rfl⟩
  · simp [auxComboNew, Channel.children, State.reset]
  · simp [auxComboNew, Channel.children, aDen]
  · simp

end Bcb.Aux
