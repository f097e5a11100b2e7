import Bcb.AuxChannel.Codable
import Bcb.Lib.Steps
import Mathlib.Data.List.Count

namespace Bcb.Aux

open Lib RangeCoder Symdist

variable {κ β ι : Type}

/-! ## Counters -/

namespace Counter

variable [DecidableEq κ] [DecidableEq β]

/-- The counts of some pairs. -/
def ofPairs (l : List (κ × β)) : Counter κ β where
  cnt k b := UInt32.ofNat (l.count (k, b))
  tot k := UInt32.ofNat ((l.map Prod.fst).count k)

@[simp] theorem bump_ofPairs (l : List (κ × β)) (k : κ) (b : β) :
    (ofPairs l).bump k b = ofPairs (l ++ [(k, b)]) := by
  have hcnt : ∀ k' b', ((ofPairs l).bump k b).cnt k' b' = (ofPairs (l ++ [(k, b)])).cnt k' b' := by
    intro k' b'
    simp only [bump, ofPairs, List.count_append, List.count_singleton, UInt32.ofNat_add,
      Function.update_apply]
    by_cases hk : k' = k
    · subst hk
      by_cases hb : b' = b
      · subst hb
        simp
      · simp [Function.update_of_ne hb, Ne.symm hb]
    · simp [hk, Ne.symm hk]
  have htot : ∀ k', ((ofPairs l).bump k b).tot k' = (ofPairs (l ++ [(k, b)])).tot k' := by
    intro k'
    simp only [bump, ofPairs, List.map_append, List.map_cons, List.map_nil, List.count_append,
      List.count_singleton, UInt32.ofNat_add, Function.update_apply]
    by_cases hk : k' = k
    · subst hk
      simp
    · simp [hk, Ne.symm hk]
  exact congrArg₂ Counter.mk (funext fun k' => funext fun b' => hcnt k' b') (funext htot)

end Counter

/-! ## Learning -/

section Learning

variable (cls : UInt8 → κ) (corpus : List UInt8)

/-- The bytes with their classes. -/
def inClass : List (κ × UInt8) := corpus.map fun b => (cls b, b)

/-- The classes, each with that of the next byte. -/
def classSteps : List (κ × κ) := steps (corpus.map cls)

/-- Two classes, and that of the byte after them. -/
def classSteps2 : List ((κ × κ) × κ) := (steps (classSteps cls corpus)).map fun x => (x.1, x.2.2)

/-- How long the last word of a text is. -/
def phaseOf (text : List UInt8) : Nat := (text.reverse.takeWhile fun b => !isWs b).length

/-- The bytes with the phases they came in. -/
def inPhase : List (Nat × UInt8) :=
  corpus.zipIdx.map fun x => (cappedPhase (phaseOf (corpus.take x.2)), x.1)

variable {cls}

@[simp] theorem inClass_concat (b : UInt8) :
    inClass cls (corpus ++ [b]) = inClass cls corpus ++ [(cls b, b)] := List.map_append ..

theorem classSteps_concat (b : UInt8) : classSteps cls (corpus ++ [b]) = classSteps cls corpus ++
    ((corpus.map cls).getLast?.map fun p => (p, cls b)).toList := by
  rw [classSteps, List.map_append]
  exact steps_concat _ _

theorem classSteps2_concat (b : UInt8) :
    classSteps2 cls (corpus ++ [b]) = classSteps2 cls corpus ++
      (((corpus.dropLast.map cls).getLast?.bind fun p2 =>
        (corpus.map cls).getLast?.map fun p1 => ((p2, p1), cls b)).toList) := by
  have hlast := steps_getLast? (corpus.map cls)
  rw [← List.map_dropLast] at hlast
  rw [classSteps2, classSteps_concat]
  cases h1 : (corpus.map cls).getLast? with
  | none =>
    rw [h1] at hlast
    cases h2 : (corpus.dropLast.map cls).getLast? <;> simp [classSteps2]
  | some p1 =>
    rw [h1] at hlast
    rw [Option.map_some, Option.toList_some, steps_concat, List.map_append, classSteps, hlast]
    cases h2 : (corpus.dropLast.map cls).getLast? <;> rfl

@[simp] theorem phaseOf_concat (text : List UInt8) (b : UInt8) :
    phaseOf (text ++ [b]) = if isWs b then 0 else phaseOf text + 1 := by
  rw [phaseOf, List.reverse_append, List.reverse_singleton, List.singleton_append,
    List.takeWhile_cons]
  cases isWs b <;> rfl

@[simp] theorem inPhase_concat (b : UInt8) :
    inPhase (corpus ++ [b]) = inPhase corpus ++ [(cappedPhase (phaseOf corpus), b)] := by
  have hold : ∀ x ∈ corpus.zipIdx, (cappedPhase (phaseOf ((corpus ++ [b]).take x.2)), x.1) =
      (cappedPhase (phaseOf (corpus.take x.2)), x.1) := by
    intro x hx
    have hlt := List.snd_lt_of_mem_zipIdx hx
    rw [List.take_append_of_le_length (by omega)]
  rw [inPhase, List.zipIdx_append, List.map_append, List.map_congr_left hold]
  simp [inPhase]

end Learning

section States

variable [DecidableEq κ] (cls : UInt8 → κ) (start : κ) (corpus text : List UInt8)

/-- The class of the last byte. -/
def lastClass : κ := (text.map cls).getLast?.getD start

/-- The state where the corpus has been learnt, and the bytes met are those of the text. -/
def ClassState.ofText : ClassState κ where
  trans := .ofPairs (classSteps cls corpus)
  bytecnt := .ofPairs (inClass cls corpus)
  prev := lastClass cls start text

def BigramState.ofText : BigramState where
  trans2 := .ofPairs (classSteps2 byteType corpus)
  bytecnt := .ofPairs (inClass byteType corpus)
  pt1 := lastClass byteType .space text
  pt2 := lastClass byteType .space text.dropLast

def WsState.ofText : WsState := ⟨.ofPairs (inPhase corpus), phaseOf text⟩

theorem classLearn_eq : classLearn cls start corpus = .ofText cls start corpus corpus := by
  have hrun : corpus.foldl (fun (x : ClassState κ × Option κ) b =>
      (classCount cls x.1 x.2 b, some (cls b))) (classReset start, none) =
        (⟨.ofPairs (classSteps cls corpus), .ofPairs (inClass cls corpus), start⟩,
          (corpus.map cls).getLast?) := by
    induction corpus using List.reverseRecOn with
    | nil => rfl
    | append_singleton corpus b ih =>
      rw [List.foldl_append, ih, List.foldl_cons, List.foldl_nil, classSteps_concat,
        inClass_concat, List.map_append, List.map_singleton, List.getLast?_concat]
      dsimp only [classCount]
      rw [Counter.bump_ofPairs]
      cases (corpus.map cls).getLast? with
      | none => simp
      | some p => simp [Counter.bump_ofPairs]
  rw [classLearn, hrun]
  rfl

theorem bgLearn_eq : bgLearn corpus = .ofText corpus corpus := by
  have hrun : corpus.foldl (fun (x : BigramState × Option ByteType × Option ByteType) b =>
      (bgCount x.1 x.2.1 x.2.2 b, x.2.2, some (byteType b))) (bgReset, none, none) =
        (⟨.ofPairs (classSteps2 byteType corpus), .ofPairs (inClass byteType corpus), .space,
          .space⟩, (corpus.dropLast.map byteType).getLast?, (corpus.map byteType).getLast?) := by
    induction corpus using List.reverseRecOn with
    | nil => rfl
    | append_singleton corpus b ih =>
      rw [List.foldl_append, ih, List.foldl_cons, List.foldl_nil, classSteps2_concat,
        inClass_concat, List.dropLast_concat, List.map_append,
        List.map_singleton, List.getLast?_concat]
      dsimp only [bgCount]
      rw [Counter.bump_ofPairs]
      cases (corpus.dropLast.map byteType).getLast? with
      | none => simp
      | some p2 =>
        cases (corpus.map byteType).getLast? with
        | none => simp
        | some p1 => simp [Counter.bump_ofPairs]
  rw [bgLearn, hrun]
  rfl

variable {corpus}

theorem nextPhase_eq {phase phase' : Nat} {b : UInt8} (h : nextPhase phase b = .ok phase') :
    phase' = if isWs b then 0 else phase + 1 := by
  unfold nextPhase at h
  split_ifs at h with hws
  · rw [if_pos hws]
    exact (Except.ok.inj h).symm
  · rw [if_neg hws]
    exact (Except.ok.inj h).symm

theorem wsLearn_eq {s : WsState} (h : wsLearn corpus = .ok s) : s = .ofText corpus corpus := by
  refine foldlM_inv (P := fun pre s => s = .ofText pre pre) h rfl ?_
  rintro pre b - _ s' rfl hb
  obtain ⟨phase, hphase, hb⟩ := bind_eq_ok.1 hb
  obtain rfl := Except.ok.inj hb
  rw [nextPhase_eq hphase, WsState.ofText, WsState.ofText, inPhase_concat, phaseOf_concat,
    Counter.bump_ofPairs]

end States

namespace State

variable {corpus text : List UInt8} {s s' : State} {b : UInt8}

def ofText (corpus text : List UInt8) : State → State
  | .byteType _ => .byteType (.ofText Aux.byteType .space corpus text)
  | .bigramType _ => .bigramType (.ofText corpus text)
  | .casePattern _ => .casePattern (.ofText caseClass .nonLetter corpus text)
  | .whitespacePhase _ => .whitespacePhase (.ofText corpus text)

@[simp] theorem ofText_ofText (s : State) (corpus text corpus' text' : List UInt8) :
    (s.ofText corpus text).ofText corpus' text' = s.ofText corpus' text' := by
  cases s <;> rfl

theorem reset_eq (s : State) : s.reset = s.ofText [] [] := by
  cases s <;> rfl

theorem learn_eq (h : s.learn corpus = .ok s') : s' = s.ofText corpus corpus := by
  cases s with
  | byteType s =>
    obtain rfl := Except.ok.inj h
    exact congrArg State.byteType (classLearn_eq _ _ _)
  | bigramType s =>
    obtain rfl := Except.ok.inj h
    exact congrArg State.bigramType (bgLearn_eq _)
  | casePattern s =>
    obtain rfl := Except.ok.inj h
    exact congrArg State.casePattern (classLearn_eq _ _ _)
  | whitespacePhase s =>
    obtain ⟨s1, hs1, h⟩ := bind_eq_ok.1 h
    obtain rfl := Except.ok.inj h
    exact congrArg State.whitespacePhase (wsLearn_eq hs1)

theorem observe_eq (h : (s.ofText corpus text).observe b = .ok s') :
    s' = s.ofText corpus (text ++ [b]) := by
  have hlast : ∀ {κ : Type} [DecidableEq κ] (cls : UInt8 → κ) (start : κ),
      lastClass cls start (text ++ [b]) = cls b := by
    intro κ _ cls start
    rw [lastClass, List.map_append, List.map_singleton, List.getLast?_concat]
    rfl
  cases s with
  | byteType s =>
    obtain rfl := Except.ok.inj h
    simp only [ofText, ClassState.ofText, hlast]
    rfl
  | bigramType s =>
    obtain rfl := Except.ok.inj h
    simp only [ofText, BigramState.ofText, hlast, List.dropLast_concat]
    rfl
  | casePattern s =>
    obtain rfl := Except.ok.inj h
    simp only [ofText, ClassState.ofText, hlast]
    rfl
  | whitespacePhase s =>
    obtain ⟨s1, hs1, h⟩ := bind_eq_ok.1 h
    obtain rfl := Except.ok.inj h
    obtain ⟨phase, hphase, hs1⟩ := bind_eq_ok.1 hs1
    obtain rfl := Except.ok.inj hs1
    simp only [ofText, WsState.ofText, phaseOf_concat, nextPhase_eq hphase]

end State

/-! ## What is expected of a byte -/

/-- `n` of `tot` in parts of `scale`. -/
def portion (scale n tot other : Nat) : Nat := if tot = 0 then other else scale * n / tot

theorem part_ofNat (W : Words) {scale n tot : Nat} (other : Nat) (hle : n ≤ tot)
    (htot : tot < 2 ^ 32) (hscale : scale < 2 ^ 24) :
    part W scale (UInt32.ofNat n) (UInt32.ofNat tot) other = .ok (portion scale n tot other) := by
  have hn : (UInt32.ofNat n).toNat = n := Nat.mod_eq_of_lt (by omega)
  have ht : (UInt32.ofNat tot).toNat = tot := Nat.mod_eq_of_lt (by omega)
  have hzero : UInt32.ofNat tot = 0 ↔ tot = 0 := by
    rw [← UInt32.toNat_inj, ht]
    rfl
  by_cases h0 : tot = 0
  · rw [part, if_pos (hzero.2 h0), portion, if_pos h0]
    rfl
  · have hmul : scale * n ≤ 2 ^ 24 * 2 ^ 32 := Nat.mul_le_mul hscale.le (by omega)
    have hdiv : scale * n / tot ≤ scale := by
      apply Nat.div_le_of_le_mul
      rw [Nat.mul_comm]
      exact Nat.mul_le_mul_right _ hle
    rw [part, if_neg (mt hzero.1 h0), portion, if_neg h0, hn, ht, W.u64_of_lt (by omega), ok_bind,
      W.u32_of_lt (by omega)]

theorem portion_le {scale n tot other : Nat} (hle : n ≤ tot) (hother : other ≤ scale) :
    portion scale n tot other ≤ scale := by
  unfold portion
  split_ifs
  · exact hother
  · apply Nat.div_le_of_le_mul
    rw [Nat.mul_comm]
    exact Nat.mul_le_mul_right _ hle

section Expected

variable [DecidableEq κ] [DecidableEq ι]

/-- How often the class of a byte has come after `i`, and then the byte in its class. -/
def classExpected (cls : UInt8 → κ) (nClasses scale : Nat) (trans : List (ι × κ)) (i : ι)
    (corpus : List UInt8) (b : UInt8) : Nat :=
  portion (portion scale (trans.count (i, cls b)) ((trans.map Prod.fst).count i) (scale / nClasses))
    (corpus.count b) ((corpus.map cls).count (cls b)) 0

theorem classPrior_eq (W : Words) (cls : UInt8 → κ) (nClasses : Nat) {scale : Nat}
    {trans : List (ι × κ)} (i : ι) {corpus : List UInt8} (htrans : trans.length < 2 ^ 32)
    (hcorpus : corpus.length < 2 ^ 32) (hscale : scale < 2 ^ 24) :
    classPrior W cls nClasses scale (.ofPairs trans) i (.ofPairs (inClass cls corpus)) =
      .ok (classExpected cls nClasses scale trans i corpus) := by
  apply forBytes_ok
  intro b
  have hfst : (inClass cls corpus).map Prod.fst = corpus.map cls := by
    rw [inClass, List.map_map]
    rfl
  have hcount : (inClass cls corpus).count (cls b, b) = corpus.count b :=
    List.count_map_of_injective _ _ (fun x y h => (Prod.mk.inj h).2) b
  have htot : (trans.map Prod.fst).count i < 2 ^ 32 :=
    (List.count_le_length.trans_eq (List.length_map _)).trans_lt htrans
  have hclass : (corpus.map cls).count (cls b) < 2 ^ 32 :=
    (List.count_le_length.trans_eq (List.length_map _)).trans_lt hcorpus
  have hle : trans.count (i, cls b) ≤ (trans.map Prod.fst).count i :=
    List.count_le_count_map (f := Prod.fst)
  have hpt := portion_le hle (Nat.div_le_self scale nClasses)
  simp only [Counter.ofPairs, hfst, hcount]
  rw [part_ofNat W _ hle htot hscale, ok_bind,
    part_ofNat W _ List.count_le_count_map hclass (hpt.trans_lt hscale)]
  rfl

end Expected

namespace State

/-- The weights that a channel adds, from the corpus and from where the text ends. -/
def expected (corpus text : List UInt8) (scale : Nat) : State → UInt8 → Nat
  | .byteType _ => classExpected Aux.byteType nTypes scale (classSteps Aux.byteType corpus)
      (lastClass Aux.byteType .space text) corpus
  | .bigramType _ => classExpected Aux.byteType nTypes scale (classSteps2 Aux.byteType corpus)
      (lastClass Aux.byteType .space text.dropLast, lastClass Aux.byteType .space text) corpus
  | .casePattern _ => classExpected caseClass nCase scale (classSteps caseClass corpus)
      (lastClass caseClass .nonLetter text) corpus
  | .whitespacePhase _ => fun b =>
      portion scale ((inPhase corpus).count (cappedPhase (phaseOf text), b))
        (((inPhase corpus).map Prod.fst).count (cappedPhase (phaseOf text))) (scale / 256)

end State

theorem steps_length_le {α : Type} (l : List α) : (steps l).length ≤ l.length := by
  rw [steps, List.length_zip]
  exact min_le_left _ _

theorem AuxChannel.adjust_ofText (W : Words) (ch : AuxChannel) {corpus : List UInt8}
    (text : List UInt8) (hcorpus : corpus.length < 2 ^ 32) (cum : Cum) {scale : Nat}
    (hscale : scale < 2 ^ 24) :
    AuxChannel.adjust W { ch with state := ch.state.ofText corpus text } cum scale =
      blendInto W cum scale ch.alphaQ16 (ch.state.expected corpus text scale) := by
  have hsteps : ∀ {κ : Type} (cls : UInt8 → κ), (classSteps cls corpus).length < 2 ^ 32 :=
    fun cls => ((steps_length_le _).trans_eq (List.length_map _)).trans_lt hcorpus
  have hsteps2 : ∀ {κ : Type} (cls : UInt8 → κ), (classSteps2 cls corpus).length < 2 ^ 32 := by
    intro κ cls
    rw [classSteps2, List.length_map]
    exact (steps_length_le _).trans_lt (hsteps cls)
  obtain ⟨alpha, s⟩ := ch
  cases s with
  | byteType s =>
    change classAdjust W Aux.byteType nTypes _ alpha cum scale = _
    rw [classAdjust, ClassState.ofText, classPrior_eq W _ _ _ (hsteps _) hcorpus hscale]
    rfl
  | bigramType s =>
    change bgAdjust W _ alpha cum scale = _
    rw [bgAdjust, BigramState.ofText, classPrior_eq W _ _ _ (hsteps2 _) hcorpus hscale]
    rfl
  | casePattern s =>
    change classAdjust W caseClass nCase _ alpha cum scale = _
    rw [classAdjust, ClassState.ofText, classPrior_eq W _ _ _ (hsteps _) hcorpus hscale]
    rfl
  | whitespacePhase s =>
    have hlen : (inPhase corpus).length < 2 ^ 32 := by
      rwa [inPhase, List.length_map, List.length_zipIdx]
    have hprior : forBytes (fun b => part W scale
        ((Counter.ofPairs (inPhase corpus)).cnt (cappedPhase (phaseOf text)) b)
        ((Counter.ofPairs (inPhase corpus)).tot (cappedPhase (phaseOf text))) (scale / 256)) =
          .ok (State.expected corpus text scale (.whitespacePhase s)) :=
      forBytes_ok fun b => part_ofNat W _ (List.count_le_count_map (f := Prod.fst))
        ((List.count_le_length.trans_eq (List.length_map _)).trans_lt hlen) hscale
    change wsAdjust W _ alpha cum scale = _
    rw [wsAdjust, WsState.ofText, hprior]
    rfl

/-! ## Runs -/

/-- The corpus learnt, and the text met, after one more call. -/
def Call.heard : List UInt8 × List UInt8 → Call → List UInt8 × List UInt8
  | _, .learn corpus => (corpus, corpus)
  | _, .reset => ([], [])
  | (corpus, text), .observe b => (corpus, text ++ [b])

namespace Channel

variable {c c' : Channel} {f : State → Outcome State} {g : State → State}

theorem mapChildren_eq (h : ∀ ch ∈ c.children, ∀ s, f ch.state = .ok s → s = g ch.state)
    (hrun : c.mapChildren f = .ok c') :
    c'.children = c.children.map fun ch => { ch with state := g ch.state } := by
  cases c with
  | single ch =>
    obtain ⟨s, hs, hrun⟩ := bind_eq_ok.1 hrun
    obtain rfl := Except.ok.inj hrun
    rw [h ch List.mem_cons_self s hs]
    rfl
  | combo chs =>
    obtain ⟨chs', hmap, hrun⟩ := bind_eq_ok.1 hrun
    obtain rfl := Except.ok.inj hrun
    have hlist : ∀ l l' : List AuxChannel, (∀ ch ∈ l, ∀ s, f ch.state = .ok s → s = g ch.state) →
        (l.mapM fun ch => do return { ch with state := ← f ch.state }) = .ok l' →
          l' = l.map fun ch => { ch with state := g ch.state } := by
      intro l
      induction l with
      | nil =>
        intro l' _ hmap
        exact (Except.ok.inj hmap).symm
      | cons ch l ih =>
        intro l' h hmap
        obtain ⟨ch', l1, hch, hl, rfl⟩ := mapM_cons_ok hmap
        obtain ⟨s, hs, hch⟩ := bind_eq_ok.1 hch
        obtain rfl := Except.ok.inj hch
        rw [List.map_cons, h ch List.mem_cons_self s hs,
          ih l1 (fun x hx => h x (List.mem_cons_of_mem ch hx)) hl]
    exact hlist chs chs' h hmap

/-- The channel is `c0` with the corpus learnt and the text met. -/
def Told (c0 : Channel) (heard : List UInt8 × List UInt8) (c : Channel) : Prop :=
  c.children = c0.children.map fun ch => { ch with state := ch.state.ofText heard.1 heard.2 }

variable {c0 : Channel} {heard : List UInt8 × List UInt8}

theorem Told.run (h : Told c0 heard c) {call : Call} (hrun : call.run c = .ok c') :
    Told c0 (call.heard heard) c' := by
  have hstep : c'.children = c.children.map fun ch =>
      { ch with state := ch.state.ofText (call.heard heard).1 (call.heard heard).2 } := by
    cases call with
    | learn corpus => exact mapChildren_eq (fun ch _ s hs => State.learn_eq hs) hrun
    | reset =>
      refine mapChildren_eq (f := fun s => pure s.reset) (fun ch _ s hs => ?_) hrun
      obtain rfl := Except.ok.inj hs
      exact ch.state.reset_eq
    | observe b =>
      refine mapChildren_eq (fun ch hch s hs => ?_) hrun
      rw [show c.children = _ from h] at hch
      obtain ⟨ch0, -, rfl⟩ := List.mem_map.1 hch
      rw [State.observe_eq hs, State.ofText_ofText]
      rfl
  rw [Told, hstep, show c.children = _ from h, List.map_map]
  refine List.map_congr_left fun ch _ => ?_
  simp only [Function.comp_apply, State.ofText_ofText]

/-- After any calls on a new channel, the table it adjusts is blended with what the last corpus
makes expect, at the end of the bytes met since then. -/
theorem adjust_heard (hc : c.Fresh) {calls : List Call}
    (hlearn : ∀ corpus, .learn corpus ∈ calls → corpus.length < 2 ^ 30)
    (hobserve : calls.countP Call.isObserve < 2 ^ 30) :
    ∃ c', calls.foldlM Call.run c = .ok c' ∧ ∀ (W : Words) (cum : Cum) (scale : Nat),
      scale < 2 ^ 24 → c'.adjust W cum scale = c.children.foldlM (fun cum ch =>
        blendInto W cum scale ch.alphaQ16 (ch.state.expected (calls.foldl Call.heard ([], [])).1
          (calls.foldl Call.heard ([], [])).2 scale)) cum := by
  obtain ⟨c', hrun, -⟩ := run_ok hc hlearn hobserve
  have htold : Told c (calls.foldl Call.heard ([], [])) c' ∧
      (calls.foldl Call.heard ([], [])).1.length < 2 ^ 30 := by
    refine foldlM_inv (P := fun pre c' => Told c (pre.foldl Call.heard ([], [])) c' ∧
      (pre.foldl Call.heard ([], [])).1.length < 2 ^ 30) hrun ⟨?_, by norm_num⟩ ?_
    · have hnew : ∀ ch ∈ c.children, { ch with state := ch.state.ofText [] [] } = ch := by
        intro ch hch
        rw [← State.reset_eq, ← hc.state ch hch]
      exact ((List.map_congr_left hnew).trans (List.map_id' _)).symm
    · rintro pre call hcall c1 c2 ⟨h1, hlen⟩ hc2
      rw [List.foldl_append]
      refine ⟨h1.run hc2, ?_⟩
      cases call with
      | learn corpus => exact hlearn corpus hcall
      | reset => exact (by norm_num : 0 < 2 ^ 30)
      | observe b => exact hlen
  obtain ⟨htold, hlen⟩ := htold
  refine ⟨c', hrun, fun W cum scale hscale => ?_⟩
  rw [adjust, show c'.children = _ from htold, List.foldlM_map]
  congr 1
  funext cum ch
  exact ch.adjust_ofText W _ (hlen.trans (by norm_num)) cum hscale

theorem adjust_heard_combo : ∃ c', [Call.learn [7, 7], .observe 65, .learn [97, 32, 98],
      .observe 10].foldlM Call.run
        (auxComboNew [⟨64553, .bigramType bgReset⟩, ⟨0, .whitespacePhase wsReset⟩]) = .ok c' ∧
    ∀ (W : Words) (cum : Cum) (scale : Nat), scale < 2 ^ 24 → c'.adjust W cum scale =
      [(⟨64553, .bigramType bgReset⟩ : AuxChannel), ⟨0, .whitespacePhase wsReset⟩].foldlM
        (fun cum ch => blendInto W cum scale ch.alphaQ16
          (ch.state.expected [97, 32, 98] [97, 32, 98, 10] scale)) cum := by
  have hfresh : (auxComboNew [⟨64553, .bigramType bgReset⟩,
      ⟨0, .whitespacePhase wsReset⟩]).Fresh := by
    refine ⟨?_, ?_⟩ <;> simp [auxComboNew, Channel.children, aDen, State.reset]
  exact adjust_heard hfresh (by simp) (by decide)

end Channel

end Bcb.Aux
