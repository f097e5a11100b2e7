import Bcb.Api.Framed
import Bcb.Prior.LandmarkChoice
import Bcb.Prior.WholeFile

namespace Bcb.Api

open Lib Foremost RangeCoder Bt Prior Codec

/-- Every message is coded within its bound, and decoded again. -/
def Lossless (B : Build) (p : BcbPrior) : Prop :=
  ∀ {enc : BcbEncoder} {dec : BcbDecoder} {al alD : Alloc} {msg : List UInt8} {cap cap' : Nat},
    Reachable B p enc.c → Reachable B p dec.c → al.coder = true → alD.coder = true →
    alD.output = true → msg.length < 2 ^ 28 → bcbCompressBound msg.length ≤ cap →
    msg.length ≤ cap' → ∀ out buf, ∃ n out' enc' buf' dec',
      bcbEncode B true p al enc msg cap out = .ok (.ok n, out', enc') ∧
      n ≤ bcbCompressBound msg.length ∧
      bcbDecode B true p alD dec (out'.read n) cap' buf = .ok (.ok msg.length, buf', dec') ∧
      buf'.read msg.length = msg

variable {B : Build} {im : Image} {p : BcbPrior} {c : BcbCodec} {msg : List UInt8}

section Loaded

variable (hp : priorParse B im = .ok (some p)) (hcod : TablesCodable B p)

include hp hcod

theorem tablesStrict_of_codable
    (hdist : ∀ w, ∃ cum, btV3DistributionR B true (reader p w) rcScale = .ok cum) :
    TablesStrict B p := by
  intro c hc
  have htable : ∃ cum c', codecDist B true p rcScale c = .ok (cum, c') := by
    unfold codecDist
    split_ifs with hs
    · obtain ⟨cum, hcum⟩ := structuralDist_ok hp hs hc.coherent
      exact ⟨cum, c, by rw [hcum]; rfl⟩
    · obtain ⟨o, ho⟩ := landmarkDist_ok hp c rcScale
      rw [ho, ok_bind]
      cases o with
      | some cum => exact ⟨cum, c, rfl⟩
      | none =>
        obtain ⟨cum, hcum⟩ := hdist c.window
        simp only [btDist]
        cases c.distcache with
        | none => exact ⟨cum, c, by simp only [hcum, ok_bind]; rfl⟩
        | some cache =>
          dsimp only
          split_ifs
          · exact ⟨_, _, rfl⟩
          · rw [hcum]
            exact ⟨_, _, rfl⟩
  obtain ⟨cum, c', hrun⟩ := htable
  exact ⟨cum, c', hrun, (hcod hc hrun).strict⟩

theorem compressCore_succeeds (htab : TablesStrict B p) (hc : Reachable B p c)
    (hmsg : msg.length < 2 ^ 28) {al : Alloc} (hcoder : al.coder = true) (crcOn idOn : Bool)
    {cap : Nat} (hcap : bcbCompressBound msg.length ≤ cap) (out : Buffer) :
    ∃ n out' c', compressCore B true p al crcOn idOn msg cap out c = .ok (.ok n, out', c') ∧
      n ≤ bcbCompressBound msg.length := by
  obtain ⟨⟨r, out', c'⟩, hrun⟩ := compressCore_returns hp htab hc al crcOn idOn msg cap out
  obtain ⟨⟨o, c1⟩, hpay, h⟩ := bind_eq_ok.1 hrun
  cases o with
  | none =>
    obtain ⟨c2, hset, hpay⟩ := bind_eq_ok.1 hpay
    simp only [hcoder, Bool.not_true, Bool.false_eq_true, if_false] at hpay
    obtain ⟨⟨e, c3⟩, hloop, hpay⟩ := bind_eq_ok.1 hpay
    cases hpay
  | some comp =>
    have hlen := encodePayload_length (fun h => priorParse_schema hp h) hcod hc hmsg hpay
    have hhdr := containerHeader_length crcOn idOn (structural p) msg (priorParse_id hp)
    have hbound : (containerHeader crcOn idOn (structural p) p.id msg).length + comp.length ≤
        bcbCompressBound msg.length := by
      rw [bcbCompressBound]
      omega
    dsimp only at h
    rw [if_neg (by omega)] at h
    cases h
    exact ⟨_, _, _, hrun, hbound⟩

theorem lossless_of_codable (htab : TablesStrict B p) : Lossless B p := by
  intro enc dec al alD msg cap cap' henc hdec hcoder hcoderD houtput hmsg hcap hcap' out buf
  obtain ⟨n, out', c', hrun, hn⟩ :=
    compressCore_succeeds hp hcod htab henc hmsg hcoder enc.crcOn enc.idOn hcap out
  obtain ⟨buf', d', hdecode, hread, -⟩ :=
    decompressCore_compressCore hp hcod henc hdec hmsg hcoderD houtput hrun hcap' buf
  refine ⟨n, out', { enc with c := c' }, buf', ⟨d'⟩, ?_, hn, ?_, hread⟩
  · rw [bcbEncode, hrun]
    rfl
  · rw [bcbDecode, hdecode]
    rfl

omit hcod in
theorem tablesCodable_of_usable (h : RowsUsable p) : TablesCodable B p := by
  apply tablesCodable_of_rowsOk hp
  constructor
  · intro _ pos hpos w hw _ b
    obtain ⟨w', hw', hpos', -⟩ := h.sc pos hpos
    obtain rfl := Except.ok.inj (hw'.symm.trans hw)
    exact hpos' b
  · intro _ k hk _ _ w hw _ b
    obtain ⟨w', hw', hpos', -⟩ := h.lm k hk
    obtain rfl := Except.ok.inj (hw'.symm.trans hw)
    exact hpos' b

end Loaded

section Saved

variable {luts : Bool} {D : Doubles} {g : Globals} {call : Prior.Call} {plan : Plan}

theorem fullRows_zero (cum : Nat → UInt8 → UInt16) : FullRows 0 cum := fun _ hi =>
  absurd hi (Nat.not_lt_zero _)

theorem entry_plan (h : call.plan B luts D = .ok plan) :
    call.entry.plan B luts D call.qsort call.g = .ok plan := by
  unfold Call.plan at h
  cases hx : call.entry.plan B luts D call.qsort call.g with
  | error f =>
    rw [hx] at h
    cases h
  | ok x =>
    rw [hx] at h
    exact congrArg Except.ok (Except.ok.inj h)

theorem plan_full (h : call.plan B luts D = .ok plan) :
    FullRows plan.own.lmK plan.own.lmCum ∧ FullRows plan.own.scRec plan.own.scCum := by
  have hnone : FullRows (registered none none).lmK (registered none none).lmCum ∧
      FullRows (registered none none).scRec (registered none none).scCum :=
    ⟨fullRows_zero _, fullRows_zero _⟩
  have hplan := entry_plan h
  cases hentry : call.entry with
  | save =>
    rw [hentry] at hplan
    obtain rfl := Except.ok.inj hplan
    exact hnone
  | withLandmarks n k =>
    rw [hentry, Entry.plan] at hplan
    split_ifs at hplan with hn
    · obtain ⟨t, ht, rfl⟩ := map_eq_ok.1 hplan
      refine ⟨?_, fullRows_zero _⟩
      rw [Plan.own, LmTables.kept]
      split_ifs
      · exact fullRows_zero _
      · exact buildLandmarks_full ht
    · obtain rfl := Except.ok.inj hplan
      exact hnone
  | withSchema corpus rec =>
    rw [hentry, Entry.plan] at hplan
    split_ifs at hplan with hrec hfew
    · obtain rfl := Except.ok.inj hplan
      exact hnone
    · obtain ⟨t, ht, rfl⟩ := map_eq_ok.1 hplan
      exact ⟨fullRows_zero _, buildSchema_full ht⟩
    · obtain rfl := Except.ok.inj hplan
      exact hnone

theorem step_initial {w : Written} {proc : Prior.Process}
    (h : call.step B luts D .initial = .ok (some w, proc)) :
    ∃ plan, call.plan B luts D = .ok plan ∧ w = writeImage B call.io call.m plan.own call.g := by
  unfold Call.step at h
  cases hplan : call.plan B luts D with
  | error e =>
    rw [hplan] at h
    cases h
  | ok plan =>
    rw [hplan] at h
    have hclean : Pending.none.disturbs plan.kind = false := by
      cases plan <;> rfl
    have hperform : ∃ s', call.perform B plan .initial = .ok (call.own B plan, s') ∧ Tracks _ s' :=
      initial_tracks.perform_own fun _ => hclean
    obtain ⟨proc', hrun, -⟩ := hperform
    have hown := congrArg Prod.fst (Except.ok.inj (hrun.symm.trans h))
    refine ⟨plan, rfl, ?_⟩
    dsimp only at hown
    rw [Call.own] at hown
    split_ifs at hown
    exact (Option.some.inj hown).symm

theorem step_saved {file : List UInt8} {proc : Prior.Process}
    (h : call.step B luts D .initial = .ok (some ⟨file, true⟩, proc)) (hsize : file.length < 2 ^ 63) :
    ∃ plan, call.plan B luts D = .ok plan ∧
      Prior.Saved B call.m plan.own call.g (.ofList file) := by
  obtain ⟨plan, hplan, hw⟩ := step_initial h
  have hok : (writeImage B call.io call.m plan.own call.g).ok = true := by rw [← hw]
  have hfile : file = imageBytes B call.m plan.own call.g := by rw [← writeImage_file hok, ← hw]
  rw [hfile, imageBytes_length] at hsize
  exact ⟨plan, hplan, hfile ▸ imageBytes_saved hsize⟩

end Saved

section Trained

variable {B : Build} {D : Doubles} {s : List UInt8} {pool : Nat → BtEntry}
  {ctxPool : Nat → CtxEntry} {g : Globals}
  (hrun : btV3TrainAll B (fun _ _ => .succeeds) s (btV3Init B pool ctxPool) = .ok g)
  (hg : Bt.Counted B (Ngram.log btMaxDepth s) g)

include hrun hg

theorem trained_loads {entry : Entry} {qsort : Sorting CtxRef.before} {io : Io} {pad : Padding}
    {file : List UInt8} {proc : Prior.Process}
    (hstep : (Prior.Call.mk entry g ⟨pad, fun _ => 0⟩ qsort io).step B true D .initial =
      .ok (some ⟨file, true⟩, proc)) (hsize : file.length < 2 ^ 63) :
    ∃ plan p, entry.plan B true D qsort g = .ok plan ∧
      priorParse B (.ofList file) = .ok (some p) ∧ ReadsBack B plan.own g p ∧ RowsUsable p := by
  obtain ⟨plan, hplan, hsaved⟩ := step_saved hstep hsize
  obtain ⟨hlm, hsc⟩ := plan_full hplan
  -- the context table has a free slot after every training without a failure
  have hused : g.ctx.used ≤ 2 ^ 31 := (trainAll_linked hrun).ctxUsed
  have hfree : g.ctx.used < g.ctx.nslots :=
    (hg.ctx.used_lt_reach hg.represents.ctx.indexed.used_le
      (hused.trans_lt (by decide : 2 ^ 31 < 2 ^ 32))).trans_le (Table.reach_le _)
  obtain ⟨p, hload, hback⟩ := (hsaved.parse_iff (trainAll_linked hrun) hg.represents).2 hfree
  exact ⟨plan, p, entry_plan hplan, hload, hback, rowsUsable_of_saved hlm hsc hsaved hload⟩

end Trained

/-- What is trained, saved with landmarks, with a schema or as it is, and reported as written, is
loaded as a prior that codes every message without loss. -/
theorem trained_lossless {B : Build} (D : Doubles) (pool : Nat → BtEntry)
    (ctxPool : Nat → CtxEntry) {s : List UInt8} (hroom : RoomFor B (Ngram.log btMaxDepth s))
    (hs : btMaxDepth * s.length < 2 ^ 31) :
    ∃ g, btV3TrainAll B (fun _ _ => .succeeds) s (btV3Init B pool ctxPool) = .ok g ∧
      ∀ (entry : Entry) (qsort : Sorting CtxRef.before) (io : Io) (pad : Padding)
        {file : List UInt8} {proc : Prior.Process},
        (Prior.Call.mk entry g ⟨pad, fun _ => 0⟩ qsort io).step B true D .initial =
          .ok (some ⟨file, true⟩, proc) → file.length < 2 ^ 63 →
        ∃ p, priorParse B (.ofList file) = .ok (some p) ∧ Lossless B p := by
  have hus : (Ngram.log btMaxDepth s).length < 2 ^ 31 := (Ngram.log_length_le _ _).trans_lt hs
  obtain ⟨g, hrun, hg, -⟩ := trainAll_counted pool ctxPool hroom
    ((List.toFinset_card_le _).trans hus.le)
  refine ⟨g, hrun, fun entry qsort io pad file proc hstep hsize => ?_⟩
  obtain ⟨plan, p, -, hload, hback, husable⟩ := trained_loads hrun hg hstep hsize
  have hcod : TablesCodable B p := tablesCodable_of_usable hload husable
  have hdist : ∀ w, ∃ cum, btV3DistributionR B true (reader p w) rcScale = .ok cum := fun w =>
    ⟨_, (hback.distribution w rcScale).trans (hg.table hus w).1⟩
  exact ⟨p, hload, lossless_of_codable hload hcod (tablesStrict_of_codable hload hcod hdist)⟩

theorem reported {g : Globals} {entry : Entry} {plan : Plan} (hbt : g.bt.used ≤ 2 ^ 31)
    (hctx : g.ctx.used ≤ 2 ^ 31) (hslots : g.ctx.nslots ≤ 2 ^ 40)
    (hplan : entry.plan .plain true .exact (.stable _) g = .ok plan) (hsaves : plan.saves = true) :
    ∃ file proc, (Prior.Call.mk entry g ⟨⟨fun _ _ => 0, fun _ _ => 0⟩, fun _ => 0⟩
      (.stable _) ⟨true, fun _ n => n, true⟩).step .plain true .exact .initial =
        .ok (some ⟨file, true⟩, proc) ∧ file.length < 2 ^ 63 := by
  obtain ⟨file, hsave⟩ := bcbPriorSave_some .plain ⟨fun _ _ => 0, fun _ _ => 0⟩ plan.own hbt hctx
    hslots
  let call : Prior.Call := ⟨entry, g, ⟨⟨fun _ _ => 0, fun _ _ => 0⟩, fun _ => 0⟩,
    .stable _, ⟨true, fun _ n => n, true⟩⟩
  have hclean : Pending.none.disturbs plan.kind = false := by
    cases plan <;> rfl
  have hperform : ∃ s', call.perform .plain plan .initial = .ok (call.own .plain plan, s') ∧
      Tracks _ s' := initial_tracks.perform_own fun _ => hclean
  obtain ⟨proc, hperform, -⟩ := hperform
  have hwrite : writeImage .plain call.io call.m plan.own call.g = ⟨file, true⟩ :=
    writeImage_complete (fun _ _ => le_rfl) rfl rfl hsave
  have hown : call.own .plain plan = some ⟨file, true⟩ := by
    rw [Call.own, hsaves, hwrite]
    rfl
  have hstep : call.step .plain true .exact .initial = .ok (some ⟨file, true⟩, proc) := by
    rw [Call.step, Call.plan, hplan]
    exact hperform.trans (by rw [hown])
  exact ⟨file, proc, hstep, (bcbPriorSave_saved hsave).lt⟩

theorem reported_aba : ∃ g file proc,
    btV3TrainAll .plain (fun _ _ => .succeeds) [97, 98, 97]
      (btV3Init .plain (fun _ => blankBt) fun _ => blankCtx) = .ok g ∧
    (Prior.Call.mk (.withLandmarks 1 2) g ⟨⟨fun _ _ => 0, fun _ _ => 0⟩, fun _ => 0⟩
      (.stable _) ⟨true, fun _ n => n, true⟩).step .plain true .exact .initial =
        .ok (some ⟨file, true⟩, proc) ∧ file.length < 2 ^ 63 := by
  obtain ⟨g, hrun, hbt, hctx, hslots⟩ := aba_sizes
  obtain ⟨g1, hrun1, hg, -⟩ := trainAll_counted (B := .plain) (fun _ => blankBt)
    (fun _ => blankCtx) (s := [97, 98, 97]) (.inl rfl) (by decide)
  obtain rfl := Except.ok.inj (hrun.symm.trans hrun1)
  obtain ⟨lm, hbuild, -⟩ := buildLandmarks_chosen hg (by decide) .exact (.stable _)
    (show 1 ≤ 1 ∧ 1 ≤ btMaxDepth by decide) 2
  have hplan : Entry.plan .plain true .exact (.stable _) g (.withLandmarks 1 2) =
      .ok (.landmarks lm) := by
    rw [Entry.plan, dif_pos (by decide)]
    exact congrArg (Plan.landmarks <$> ·) hbuild
  obtain ⟨file, proc, hstep, hsize⟩ := reported (by omega) (by omega) (by omega) hplan rfl
  exact ⟨g, file, proc, hrun, hstep, hsize⟩

theorem trained_lossless_aba : ∃ g file proc p,
    btV3TrainAll .plain (fun _ _ => .succeeds) [97, 98, 97]
      (btV3Init .plain (fun _ => blankBt) fun _ => blankCtx) = .ok g ∧
    (Prior.Call.mk (.withLandmarks 1 2) g ⟨⟨fun _ _ => 0, fun _ _ => 0⟩, fun _ => 0⟩
      (.stable _) ⟨true, fun _ n => n, true⟩).step .plain true .exact .initial =
        .ok (some ⟨file, true⟩, proc) ∧
    priorParse .plain (.ofList file) = .ok (some p) ∧ Lossless .plain p := by
  obtain ⟨g, file, proc, hrun, hstep, hsize⟩ := reported_aba
  obtain ⟨g1, hrun1, hall⟩ := trained_lossless (B := .plain) .exact (fun _ => blankBt)
    (fun _ => blankCtx) (s := [97, 98, 97]) (.inl rfl) (by decide)
  obtain rfl := Except.ok.inj (hrun.symm.trans hrun1)
  obtain ⟨p, hload, hlossless⟩ := hall _ _ _ _ hstep hsize
  exact ⟨g, file, proc, p, hrun, hstep, hload, hlossless⟩

end Bcb.Api
