import Bcb.Bt.Safety

/-! The shared default of a level changes nothing: `bt_v3_distribution_r` returns the table
that weighs every byte by itself. -/

namespace Bcb.Bt

open RangeCoder (Cum)

/-- What a level adds to the sums of a byte: `W` times its average, and `W`. -/
def addMean (wint : Nat) (mean : Option Int) (x : Int × Int) : Outcome (Int × Int) :=
  match mean with
  | some v => do
    let ws ← i64 (x.1 + (← i64 (wint * v)))
    let wt ← i64 (x.2 + wint)
    return (ws, wt)
  | none => pure x

/-- The average of a byte over all active contexts of a level. -/
def plainCombine (B : Build) (luts : Bool) (wint : Nat) (acts : List Act) (b : UInt8)
    (x : Int × Int) : Outcome (Int × Int) :=
  if acts = [] then pure x
  else do
    let terms ← acts.mapM (actTerm B luts b)
    addMean wint (← weigh B luts terms) x

def plainLevel (B : Build) (luts : Bool) (r : BtV3Reader) (b : UInt8) (x : Int × Int)
    (lv : BtLevel) : Outcome (Int × Int) := do
  let start := min r.window.bytes.length lv.dmax
  let (acts, _) ← scanLevel B luts r (scanOrder lv.dmin start) ([], [])
  plainCombine B luts lv.wint acts b x

def plainProb (B : Build) (luts : Bool) (r : BtV3Reader) (b : UInt8) : Outcome Int := do
  clampProb (← levels.foldlM (plainLevel B luts r b) (0, 0))

def plainProbs (B : Build) (luts : Bool) (r : BtV3Reader) : Outcome (List Int) :=
  if r.window.bytes = [] then pure (allBytes.map fun _ => (pscale / 256 : Int))
  else allBytes.mapM (plainProb B luts r)

/-- The table of the 256 probabilities, each computed on its own. -/
def plainDistributionR (B : Build) (luts : Bool) (r : BtV3Reader) (scale : Nat) :
    Outcome Cum := do
  let ps ← plainProbs B luts r
  let s ← ps.foldlM (fun s p => i64 (s + p)) (0 : Int)
  if s ≤ 0 then
    return fun b => if b < 256 then b * (scale / 256) % 2 ^ 32 else scale
  let ws ← ps.mapM (scaleProb scale s)
  return cumOf fun b => ws.getD b.toNat 0

variable {B : Build} {luts : Bool} {r : BtV3Reader} {s s' : Sums} {wint : Nat} {b : UInt8}

/-- A loop over different places each turn of which sees and writes its own place only. -/
theorem foldlM_pointwise {ι α : Type} {step : (ι → α) → ι → Outcome (ι → α)}
    {f : ι → α → Outcome α} (hstep : ∀ s i s', step s i = .ok s' →
      f i (s i) = .ok (s' i) ∧ ∀ j ≠ i, s' j = s j)
    {l : List ι} (hl : l.Nodup) {s s' : ι → α} (h : l.foldlM step s = .ok s') :
    (∀ i ∈ l, f i (s i) = .ok (s' i)) ∧ ∀ i ∉ l, s' i = s i := by
  induction l generalizing s with
  | nil =>
    obtain rfl := Except.ok.inj h
    exact ⟨fun i hi => (nomatch hi), fun _ _ => rfl⟩
  | cons i l ih =>
    obtain ⟨hi, hl⟩ := List.nodup_cons.1 hl
    rw [List.foldlM_cons] at h
    obtain ⟨s1, hs1, h⟩ := bind_eq_ok.1 h
    obtain ⟨hown, hframe⟩ := hstep s i s1 hs1
    obtain ⟨hin, hout⟩ := ih hl h
    constructor
    · intro j hj
      rcases List.mem_cons.1 hj with rfl | hj
      · rwa [hout j hi]
      · rw [← hframe j (ne_of_mem_of_not_mem hj hi)]
        exact hin j hj
    · intro j hj
      obtain ⟨hne, hj⟩ := List.ne_and_not_mem_of_not_mem_cons hj
      rw [hout j hj, hframe j hne]

theorem addAt_eq_ok {x y : Int} (h : addAt b x y s = .ok s') :
    s' = Function.update s b ((s b).1 + x, (s b).2 + y) ∧
      i64 ((s b).1 + x) = .ok ((s b).1 + x) ∧ i64 ((s b).2 + y) = .ok ((s b).2 + y) := by
  obtain ⟨ws, hws, h⟩ := bind_eq_ok.1 h
  obtain ⟨wt, hwt, h⟩ := bind_eq_ok.1 h
  obtain rfl := (i64_eq_ok hws).1
  obtain rfl := (i64_eq_ok hwt).1
  exact ⟨(Except.ok.inj h).symm, hws, hwt⟩

/-- `ws[b]+=W*v; wt[b]+=W` at one byte. -/
theorem addOwn_eq_ok {mean : Option Int} (h : addOwn wint mean b s = .ok s') :
    addMean wint mean (s b) = .ok (s' b) ∧ ∀ b' ≠ b, s' b' = s b' := by
  cases mean with
  | none =>
    obtain rfl := Except.ok.inj h
    exact ⟨rfl, fun _ _ => rfl⟩
  | some v =>
    obtain ⟨x, hx, h⟩ := bind_eq_ok.1 h
    obtain rfl := (i64_eq_ok hx).1
    obtain ⟨rfl, hws, hwt⟩ := addAt_eq_ok h
    refine ⟨?_, fun b' hb' => Function.update_of_ne hb' _ _⟩
    simp only [addMean, hx, hws, hwt, ok_bind, Function.update_self]
    rfl

@[simp] theorem mem_allBytes (b : UInt8) : b ∈ allBytes :=
  List.mem_map.2 ⟨b.toNat, List.mem_range.2 b.toNat_lt, UInt8.ofNat_toNat⟩

theorem nodup_allBytes : allBytes.Nodup := by
  apply List.Nodup.map_on _ List.nodup_range
  intro i hi j hj h
  have heq := congrArg UInt8.toNat h
  rwa [UInt8.toNat_ofNat_of_lt' (List.mem_range.1 hi),
    UInt8.toNat_ofNat_of_lt' (List.mem_range.1 hj)] at heq

theorem addDefault_eq_ok {deflt : Option Int} (h : addDefault wint deflt s = .ok s') (b : UInt8) :
    addMean wint deflt (s b) = .ok (s' b) := by
  cases deflt with
  | none =>
    obtain rfl := Except.ok.inj h
    rfl
  | some v =>
    obtain ⟨x, hx, h⟩ := bind_eq_ok.1 h
    have hturn : ∀ (s : Sums) (b : UInt8) (s' : Sums), addAt b x wint s = .ok s' →
        addMean wint (some v) (s b) = .ok (s' b) ∧ ∀ j ≠ b, s' j = s j := by
      intro s b s' hs'
      apply addOwn_eq_ok
      rw [addOwn, hx]
      exact hs'
    exact (foldlM_pointwise hturn nodup_allBytes h).1 b (mem_allBytes b)

/-- `ws[b]-=W*def_lv; wt[b]-=W` at one byte. -/
def dropMean (wint : Nat) (mean : Option Int) (x : Int × Int) : Outcome (Int × Int) :=
  match mean with
  | some v => do
    let y ← i64 (wint * v)
    let ws ← i64 (x.1 + -y)
    let wt ← i64 (x.2 + -wint)
    return (ws, wt)
  | none => pure x

/-- `observed` at its byte. -/
def replaceDefault (B : Build) (luts : Bool) (wint : Nat) (acts : List Act) (deflt : Option Int)
    (b : UInt8) (x : Int × Int) : Outcome (Int × Int) := do
  let terms ← acts.mapM (actTerm B luts b)
  let prob ← weigh B luts terms
  addMean wint prob (← dropMean wint deflt x)

theorem dropDefault_eq_ok {deflt : Option Int} (h : dropDefault wint deflt b s = .ok s') :
    dropMean wint deflt (s b) = .ok (s' b) ∧ ∀ b' ≠ b, s' b' = s b' := by
  cases deflt with
  | none =>
    obtain rfl := Except.ok.inj h
    exact ⟨rfl, fun _ _ => rfl⟩
  | some v =>
    obtain ⟨x, hx, h⟩ := bind_eq_ok.1 h
    obtain ⟨rfl, hws, hwt⟩ := addAt_eq_ok h
    refine ⟨?_, fun b' hb' => Function.update_of_ne hb' _ _⟩
    simp only [dropMean, hx, hws, hwt, ok_bind, Function.update_self]
    rfl

theorem observed_eq_ok {acts : List Act} {deflt : Option Int}
    (h : observed B luts wint acts deflt s b = .ok s') :
    replaceDefault B luts wint acts deflt b (s b) = .ok (s' b) ∧ ∀ b' ≠ b, s' b' = s b' := by
  obtain ⟨terms, hterms, h⟩ := bind_eq_ok.1 h
  obtain ⟨prob, hprob, h⟩ := bind_eq_ok.1 h
  obtain ⟨s1, hs1, h⟩ := bind_eq_ok.1 h
  obtain ⟨hdrop, hframe1⟩ := dropDefault_eq_ok hs1
  obtain ⟨hadd, hframe⟩ := addOwn_eq_ok h
  refine ⟨?_, fun b' hb' => (hframe b' hb').trans (hframe1 b' hb')⟩
  rw [replaceDefault, hterms, ok_bind, hprob, ok_bind, hdrop, ok_bind, hadd]

theorem dropMean_addMean {mean : Option Int} {x y z : Int × Int}
    (hadd : addMean wint mean x = .ok y) (hdrop : dropMean wint mean y = .ok z) : z = x := by
  cases mean with
  | none =>
    obtain rfl := Except.ok.inj hadd
    exact (Except.ok.inj hdrop).symm
  | some v =>
    obtain ⟨u, hu, hadd⟩ := bind_eq_ok.1 hadd
    obtain ⟨ws, hws, hadd⟩ := bind_eq_ok.1 hadd
    obtain ⟨wt, hwt, hadd⟩ := bind_eq_ok.1 hadd
    obtain rfl := (i64_eq_ok hws).1
    obtain rfl := (i64_eq_ok hwt).1
    obtain rfl := Except.ok.inj hadd
    simp only [dropMean, hu, ok_bind, Int.add_neg_cancel_right] at hdrop
    obtain ⟨ws, hws, hdrop⟩ := bind_eq_ok.1 hdrop
    obtain ⟨wt, hwt, hdrop⟩ := bind_eq_ok.1 hdrop
    obtain rfl := (i64_eq_ok hws).1
    obtain rfl := (i64_eq_ok hwt).1
    exact (Except.ok.inj hdrop).symm

theorem replaceDefault_addMean {acts : List Act} {deflt : Option Int} {x y z : Int × Int}
    (hadd : addMean wint deflt x = .ok y)
    (h : replaceDefault B luts wint acts deflt b y = .ok z) :
    (do addMean wint (← weigh B luts (← acts.mapM (actTerm B luts b))) x) = .ok z := by
  obtain ⟨terms, hterms, h⟩ := bind_eq_ok.1 h
  obtain ⟨prob, hprob, h⟩ := bind_eq_ok.1 h
  obtain ⟨x', hx', h⟩ := bind_eq_ok.1 h
  obtain rfl := dropMean_addMean hadd hx'
  rw [hterms, ok_bind, hprob, ok_bind, h]

section Level

variable {acts : List Act} {obs : List UInt8}

theorem actTerm_unobserved {a : Act} (h : a.freq b = 0) : actTerm B luts b a = .ok (a.l0, a.p0) :=
  if_pos h

theorem mapM_actTerm_unobserved (h : ∀ a ∈ acts, a.freq b = 0) :
    acts.mapM (actTerm B luts b) = .ok (acts.map fun a => (a.l0, a.p0)) :=
  mapM_eq_map fun a ha => actTerm_unobserved (h a ha)

theorem combineLevel_plain (hobs : obs.Nodup) (hfreq : ∀ b ∉ obs, ∀ a ∈ acts, a.freq b = 0)
    (h : combineLevel B luts wint acts obs s = .ok s') (b : UInt8) :
    plainCombine B luts wint acts b (s b) = .ok (s' b) := by
  unfold combineLevel at h
  unfold plainCombine
  split_ifs at h ⊢
  · obtain rfl := Except.ok.inj h
    rfl
  · obtain ⟨deflt, hdeflt, h⟩ := bind_eq_ok.1 h
    obtain ⟨s1, hs1, h⟩ := bind_eq_ok.1 h
    have hadd := addDefault_eq_ok hs1 b
    obtain ⟨hin, hout⟩ := foldlM_pointwise (fun _ _ _ hs => observed_eq_ok hs) hobs h
    by_cases hb : b ∈ obs
    · exact replaceDefault_addMean hadd (hin b hb)
    · rw [mapM_actTerm_unobserved (hfreq b hb), ok_bind, hdeflt, ok_bind, hout b hb]
      exact hadd

/-- Pass A collects the bytes it has counts for, each once. -/
structure Scanned (acts : List Act) (obs : List UInt8) : Prop where
  nodup : obs.Nodup
  unobserved : ∀ b ∉ obs, ∀ a ∈ acts, a.freq b = 0

theorem act_freq {n : Nat} {total : UInt32} {chain : List BtEntry} {a : Act}
    (h : act B luts n total chain = .ok a) : a.freq = actFreq chain := by
  obtain ⟨q, -, h⟩ := bind_eq_ok.1 h
  obtain ⟨c, -, h⟩ := bind_eq_ok.1 h
  obtain ⟨l0, -, h⟩ := bind_eq_ok.1 h
  obtain ⟨p0, -, h⟩ := bind_eq_ok.1 h
  rw [← Except.ok.inj h]

theorem Scanned.scan {ns : List Nat} (hst : Scanned acts obs) {acts' : List Act}
    {obs' : List UInt8} (h : scanLevel B luts r ns (acts, obs) = .ok (acts', obs')) :
    Scanned acts' obs' := by
  induction ns generalizing acts obs with
  | nil =>
    cases h
    exact hst
  | cons n ns ih =>
    obtain ⟨o, -, h⟩ := bind_eq_ok.1 h
    cases o with
    | none => exact ih hst h
    | some x =>
      obtain ⟨a, ha, h⟩ := bind_eq_ok.1 h
      refine ih ⟨nodup_observe hst.nodup x.2, ?_⟩ h
      intro b hb a' ha'
      obtain ⟨hobs, hchain⟩ := not_or.1 (mem_observe.not.1 hb)
      rcases List.mem_append.1 ha' with ha' | ha'
      · exact hst.unobserved b hobs a' ha'
      · rw [List.mem_singleton.1 ha', act_freq ha]
        exact actFreq_eq_zero fun e he heq => hchain ⟨e, he, heq⟩

theorem distLevel_plain {lv : BtLevel} (h : distLevel B luts r s lv = .ok s') (b : UInt8) :
    plainLevel B luts r b (s b) lv = .ok (s' b) := by
  obtain ⟨⟨acts, obs⟩, hscan, h⟩ := bind_eq_ok.1 h
  have hempty : Scanned [] [] := ⟨List.nodup_nil, fun _ _ _ ha => (nomatch ha)⟩
  obtain ⟨hnodup, hfreq⟩ := hempty.scan hscan
  simp only [plainLevel, hscan, ok_bind]
  exact combineLevel_plain hnodup hfreq h b

end Level

theorem foldlM_distLevel_plain {lvs : List BtLevel}
    (h : lvs.foldlM (distLevel B luts r) s = .ok s') (b : UInt8) :
    lvs.foldlM (plainLevel B luts r b) (s b) = .ok (s' b) := by
  induction lvs generalizing s with
  | nil =>
    obtain rfl := Except.ok.inj h
    rfl
  | cons lv lvs ih =>
    rw [List.foldlM_cons] at h ⊢
    obtain ⟨s1, hs1, h⟩ := bind_eq_ok.1 h
    rw [distLevel_plain hs1 b, ok_bind]
    exact ih h

theorem probs_plain {ps : List Int} (h : probs B luts r = .ok ps) :
    plainProbs B luts r = .ok ps := by
  unfold probs at h
  unfold plainProbs
  split_ifs at h ⊢
  · exact h
  · obtain ⟨s, hs, h⟩ := bind_eq_ok.1 h
    have heach : plainProb B luts r = fun b => clampProb (s b) := by
      funext b
      rw [plainProb, foldlM_distLevel_plain hs b, ok_bind]
    rw [heach]
    exact h

/-! Conversely, where every byte has its averages, so has the shared default. -/

theorem levelSafe_of_plainLevel {lv : BtLevel} (hlv : lv ∈ levels)
    (h : ∀ b, ∃ x y, plainLevel B true r b x lv = .ok y) :
    LevelSafe B r lv ∧ ∃ st, scanLevel B true r
      (scanOrder lv.dmin (min r.window.bytes.length lv.dmax)) ([], []) = .ok st := by
  have hns : ∀ n ∈ scanOrder lv.dmin (min r.window.bytes.length lv.dmax), n ≤ btMaxDepth :=
    fun n hn => scanOrder_le hlv hn
  obtain ⟨_, _, h0⟩ := h 0
  obtain ⟨st, hscan, -⟩ := bind_eq_ok.1 h0
  obtain ⟨hacts, -, hspread⟩ := scanLevel_ok hns hscan
  rw [List.nil_append] at hacts
  refine ⟨?_, st, hscan⟩
  apply countsOk_of_weigh (levelOf_levelActives hlv) hspread
  intro b hb
  have hne : ¬ st.1 = [] := by
    obtain ⟨x, hx, -⟩ := hb
    rw [hacts]
    simpa [levelActives] using List.ne_nil_of_mem hx
  obtain ⟨x, y, hrun⟩ := h b
  simp only [plainLevel, hscan, ok_bind, plainCombine, if_neg hne] at hrun
  obtain ⟨terms, hterms, hrun⟩ := bind_eq_ok.1 hrun
  obtain ⟨u, hu, -⟩ := bind_eq_ok.1 hrun
  exact ⟨terms, u, hacts ▸ hterms, hu⟩

theorem foldlM_distLevel_ok {lvs : List BtLevel} {K : Int}
    (hlvs : ∀ lv ∈ lvs, lv ∈ levels ∧ LevelSafe B r lv ∧ ∃ st, scanLevel B true r
      (scanOrder lv.dmin (min r.window.bytes.length lv.dmax)) ([], []) = .ok st)
    (hb : Bounded K s) (hK : K + lvs.length * (768 * maxStep) < 2 ^ 63) :
    ∃ s', lvs.foldlM (distLevel B true r) s = .ok s' := by
  induction lvs generalizing s K with
  | nil => exact ⟨s, rfl⟩
  | cons lv lvs ih =>
    obtain ⟨hlv, hsafe, st, hscan⟩ := hlvs lv List.mem_cons_self
    obtain ⟨hone, hrest⟩ := levels_bound hK
    obtain ⟨s1, hs1, hb1⟩ := distLevel_ok hlv hsafe hb hone hscan
    have hrun : distLevel B true r s lv = .ok s1 := by
      simp only [distLevel, hscan, ok_bind]
      exact hs1
    obtain ⟨s2, hs2⟩ := ih (fun lv hlv => hlvs lv (List.mem_cons_of_mem _ hlv)) hb1 hrest
    exact ⟨s2, by rw [List.foldlM_cons, hrun, ok_bind, hs2]⟩

theorem probs_of_plain {ps : List Int} (h : plainProbs B true r = .ok ps) :
    probs B true r = .ok ps := by
  obtain ⟨ps', hps'⟩ : ∃ ps', probs B true r = .ok ps' := by
    unfold plainProbs at h
    unfold probs
    split_ifs at h ⊢
    · exact ⟨_, rfl⟩
    · have hbyte : ∀ b, ∃ x, levels.foldlM (plainLevel B true r b) (0, 0) = .ok x := by
        intro b
        obtain ⟨q, hq⟩ := mapM_mem h (mem_allBytes b)
        obtain ⟨x, hx, -⟩ := bind_eq_ok.1 hq
        exact ⟨x, hx⟩
      have hlevel : ∀ lv ∈ levels, lv ∈ levels ∧ LevelSafe B r lv ∧ ∃ st, scanLevel B true r
          (scanOrder lv.dmin (min r.window.bytes.length lv.dmax)) ([], []) = .ok st := by
        intro lv hlv
        refine ⟨hlv, levelSafe_of_plainLevel hlv ?_⟩
        intro b
        obtain ⟨x, hx⟩ := hbyte b
        exact foldlM_mem hx hlv
      have hb : Bounded 0 (fun _ => (0, 0)) := fun b => by simp
      obtain ⟨s, hs⟩ := foldlM_distLevel_ok hlevel hb (by simp [levels, maxStep])
      obtain ⟨ps', hps'⟩ : ∃ ps', allBytes.mapM (fun b => clampProb (s b)) = .ok ps' := by
        apply mapM_ok
        intro b _
        obtain ⟨q, hq⟩ := meanProb_ok (s b)
        exact ⟨_, by rw [clampProb, hq]; rfl⟩
      exact ⟨ps', by rw [hs, ok_bind]; exact hps'⟩
  rw [hps', ← h, probs_plain hps']

/-- Where either is defined, the distribution with shared defaults is the one without. -/
theorem btV3DistributionR_plain (B : Build) (r : BtV3Reader) (scale : Nat) (cum : Cum) :
    btV3DistributionR B true r scale = .ok cum ↔ plainDistributionR B true r scale = .ok cum := by
  constructor
  · intro h
    obtain ⟨ps, hps, h⟩ := bind_eq_ok.1 h
    rw [plainDistributionR, probs_plain hps, ok_bind]
    exact h
  · intro h
    obtain ⟨ps, hps, h⟩ := bind_eq_ok.1 h
    rw [btV3DistributionR, probs_of_plain hps, ok_bind]
    exact h

end Bcb.Bt
