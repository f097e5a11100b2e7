import Bcb.Api.SameId
import Bcb.Codec.LagR
import Bcb.Codec.Marks

namespace Bcb.Api

open Lib RangeCoder Bt Prior Codec

/-- The payload of symbols that are coded with these tables. -/
def payloadOf (l : List (Cum × UInt8)) : Outcome (List UInt8) := do
  let e ← l.foldlM feed cecEncNew
  return cecEncFinish e

/-! ## Messages over the counts -/

section Counts

variable {B : Build} {p : BcbPrior} {c : BcbCodec} {m pre : List UInt8} {cum : Cum} {b : UInt8}

/-- A codec without a cache, after the message `m`. -/
structure After (c : BcbCodec) (m : List UInt8) : Prop where
  window : c.window.bytes = m
  cache : c.distcache = none

theorem After.train (hc : After c m) (hs : structural p = false) (hm : m.length < btMaxDepth)
    (b : UInt8) : ∃ c', codecTrain p b c = .ok c' ∧ After c' (m ++ [b]) := by
  refine ⟨{ c with window := c.window.push b }, ?_, ?_, hc.cache⟩
  · rw [codecTrain, hs]
    rfl
  · have hlt : c.window.bytes.length < btMaxDepth := by rwa [hc.window]
    dsimp only
    rw [Window.push, dif_pos hlt]
    exact congrArg (· ++ [b]) hc.window

theorem codecDist_count (hs : structural p = false) (hc : c.distcache = none)
    (hlm : landmarkDist p c rcScale = .ok none) : codecDist B true p rcScale c =
      (btV3DistributionR B true (reader p c.window) rcScale).map (·, c) := by
  rw [codecDist, hs, if_neg Bool.false_ne_true, hlm, ok_bind]
  dsimp only
  rw [btDist, hc]
  cases btV3DistributionR B true (reader p c.window) rcScale with
  | error e => rfl
  | ok cum => rfl

theorem codecDist_landmark (hs : structural p = false)
    (hlm : landmarkDist p c rcScale = .ok (some cum)) :
    codecDist B true p rcScale c = .ok (cum, c) := by
  rw [codecDist, hs, if_neg Bool.false_ne_true, hlm]
  rfl

/-- Up to the end of `pre` all bytes have the same width. -/
def FlatBefore (B : Build) (p : BcbPrior) (pre : List UInt8) : Prop :=
  ∀ c m, m <+: pre → m ≠ pre → After c m → codecDist B true p rcScale c = .ok (flatTable, c)

theorem cecEncLoop_flat (hs : structural p = false) (hlen : pre.length ≤ btMaxDepth)
    (hflat : FlatBefore B p pre) (rest : List UInt8) {c : BcbCodec} (hm : m ++ rest = pre)
    (hc : After c m) : ∃ c', After c' pre ∧ ∀ tail e,
      cecEncLoop (bcbCodecCecBt B true p) (fun _ b => pure b) (rest ++ tail) e c =
        (rest.map (flatTable, ·)).foldlM feed e >>= fun e =>
          cecEncLoop (bcbCodecCecBt B true p) (fun _ b => pure b) tail e c' := by
  induction rest generalizing m c with
  | nil =>
    rw [List.append_nil] at hm
    exact ⟨c, hm ▸ hc, fun tail e => rfl⟩
  | cons b rest ih =>
    have hlt : m.length < pre.length := by
      rw [← hm, List.length_append, List.length_cons]
      omega
    have hdist := hflat c m ⟨b :: rest, hm⟩ (fun heq => hlt.ne (congrArg List.length heq)) hc
    obtain ⟨c1, htrain, h1⟩ := hc.train hs (hlt.trans_le hlen) b
    obtain ⟨c', h', hloop⟩ := ih (by rw [List.append_assoc]; exact hm) h1
    refine ⟨c', h', fun tail e => ?_⟩
    have hbyte : cecEncByte (bcbCodecCecBt B true p) e c b =
        (feed e (flatTable, b)).map (·, c1) := cecEncByte_feed hdist htrain e
    rw [List.cons_append, cecEncLoop, pure_bind, hbyte, List.map_cons, List.foldlM_cons]
    cases feed e (flatTable, b) with
    | error f => rfl
    | ok e1 => exact hloop tail e1

theorem after_new (hs : structural p = false) : ∃ c, After c [] ∧
    bcbCodecSetSdelta B p false (structural p) (bcbCodecBegin B p (bcbCodecNew B p false)) =
      .ok c := by
  have hcache : ∀ {c : BcbCodec}, c.distcache = none → After (bcbCodecBegin B p c) [] := by
    intro c hc
    simp only [bcbCodecBegin, hs, Bool.false_eq_true, if_false]
    split_ifs
    · exact ⟨rfl, by dsimp only; rw [hc]; rfl⟩
    · exact ⟨rfl, hc⟩
    · exact ⟨rfl, hc⟩
  have hnew : (bcbCodecNew B p false).distcache = none := by
    refine (hcache ?_).cache
    dsimp only
    rw [Bool.and_false]
    rfl
  have h := hcache hnew
  refine ⟨{ bcbCodecBegin B p (bcbCodecNew B p false) with sdelta := false }, ⟨h.window, h.cache⟩, ?_⟩
  simp only [bcbCodecSetSdelta, hs, Bool.false_and, Bool.and_false, Bool.false_eq_true, if_false]
  rfl

theorem encodePayload_flat (hs : structural p = false) (hlen : pre.length ≤ btMaxDepth)
    (hflat : FlatBefore B p pre) (b : UInt8) : ∃ c, After c pre ∧
      encodePayload B true p ⟨false, true, true⟩ (pre ++ [b]) (bcbCodecNew B p false) =
        ((pre.map (flatTable, ·)).foldlM feed cecEncNew >>= fun e =>
          cecEncByte (bcbCodecCecBt B true p) e c b) >>= fun x =>
            .ok (some (cecEncFinish x.1), x.2) := by
  obtain ⟨c, hc, hnew⟩ := after_new (B := B) hs
  obtain ⟨c', hc', hloop⟩ := cecEncLoop_flat hs hlen hflat pre (List.nil_append pre) hc
  have hxform : encXform p = fun _ b => pure b := by
    rw [encXform, hs]
    rfl
  have hlast : ∀ e, cecEncLoop (bcbCodecCecBt B true p) (fun _ b => pure b) [b] e c' =
      cecEncByte (bcbCodecCecBt B true p) e c' b := by
    intro e
    rw [cecEncLoop, pure_bind]
    cases cecEncByte (bcbCodecCecBt B true p) e c' b with
    | error f => rfl
    | ok x => rfl
  refine ⟨c', hc', ?_⟩
  rw [encodePayload, hnew, ok_bind, hxform]
  simp only [Bool.not_true, Bool.false_eq_true, if_false, hloop, hlast]
  rfl

theorem encodePayload_last (hs : structural p = false) (hlen : pre.length ≤ btMaxDepth)
    (hflat : FlatBefore B p pre)
    (hlast : ∀ c, After c pre → codecDist B true p rcScale c = .ok (cum, c)) :
    (encodePayload B true p ⟨false, true, true⟩ (pre ++ [b]) (bcbCodecNew B p false)).map (·.1) =
      (payloadOf (pre.map (flatTable, ·) ++ [(cum, b)])).map some := by
  obtain ⟨c, hc, hrun⟩ := encodePayload_flat hs hlen hflat b
  obtain ⟨c', htrain⟩ : ∃ c', codecTrain p b c = .ok c' := by
    rw [codecTrain, hs]
    exact ⟨_, rfl⟩
  have hbyte : ∀ e, cecEncByte (bcbCodecCecBt B true p) e c b =
      (feed e (cum, b)).map (·, c') := cecEncByte_feed (hlast c hc) htrain
  rw [hrun, payloadOf, List.foldlM_append]
  simp only [hbyte]
  cases (pre.map (flatTable, ·)).foldlM feed cecEncNew with
  | error f => rfl
  | ok e =>
    rw [ok_bind, ok_bind, List.foldlM_cons]
    cases feed e (cum, b) with
    | error f => rfl
    | ok e1 => rfl

theorem dist_of_encodePayload (hs : structural p = false) (hlen : pre.length ≤ btMaxDepth)
    (hflat : FlatBefore B p pre) {x : Option (List UInt8) × BcbCodec}
    (h : encodePayload B true p ⟨false, true, true⟩ (pre ++ [b]) (bcbCodecNew B p false) = .ok x) :
    ∃ c y, After c pre ∧ codecDist B true p rcScale c = .ok y := by
  obtain ⟨c, hc, hrun⟩ := encodePayload_flat hs hlen hflat b
  rw [hrun] at h
  obtain ⟨y, h, -⟩ := bind_eq_ok.1 h
  obtain ⟨e, -, hbyte⟩ := bind_eq_ok.1 h
  obtain ⟨z, hdist, -⟩ := bind_eq_ok.1 hbyte
  exact ⟨c, z, hc, hdist⟩

end Counts

/-! ## Containers of different length -/

section Length

variable {B : Build} {p p' : BcbPrior} {al : Alloc} {msg comp comp' : List UInt8}

theorem bcbCompress_payload
    (h : (encodePayload B true p al msg (bcbCodecNew B p false)).map (·.1) = .ok (some comp))
    (cap : Nat) (out : Buffer) : (bcbCompress B true p false al msg cap out).map (·.1) =
      .ok (if cap < (containerHeader true false (structural p) [] msg).length + comp.length then
        .error .outputTooSmall
      else .ok ((containerHeader true false (structural p) [] msg).length + comp.length)) := by
  obtain ⟨⟨o, c⟩, hrun, rfl⟩ := map_eq_ok.1 h
  simp only [bcbCompress, compressCore, hrun, ok_bind]
  have hid : containerHeader true false (structural p) p.id msg =
      containerHeader true false (structural p) [] msg := rfl
  rw [hid]
  split_ifs
  · rfl
  · rfl

theorem CodesAlike.length_eq (h : CodesAlike B p p') (hs : structural p = structural p')
    (hc : (encodePayload B true p al msg (bcbCodecNew B p false)).map (·.1) = .ok (some comp))
    (hc' : (encodePayload B true p' al msg (bcbCodecNew B p' false)).map (·.1) = .ok (some comp')) :
    comp.length = comp'.length := by
  have hrun := bcbCompress_payload hc
    ((containerHeader true false (structural p) [] msg).length + comp.length + comp'.length)
    (fun _ => 0)
  rw [h.compress, bcbCompress_payload hc', ← hs, if_neg (by omega), if_neg (by omega)] at hrun
  have hlen := Except.ok.inj (Except.ok.inj hrun)
  omega

theorem CodesAlike.encodePayload (h : CodesAlike B p p')
    (hc : (encodePayload B true p' al msg (bcbCodecNew B p' false)).map (·.1) = .ok (some comp)) :
    ∃ x, encodePayload B true p al msg (bcbCodecNew B p false) = .ok x := by
  have hrun := bcbCompress_payload hc 0 (fun _ => 0)
  rw [← h.compress] at hrun
  obtain ⟨x, hcompress, -⟩ := map_eq_ok.1 hrun
  obtain ⟨y, hcore, -⟩ := bind_eq_ok.1 hcompress
  obtain ⟨z, hpayload, -⟩ := bind_eq_ok.1 hcore
  exact ⟨z, hpayload⟩

end Length

theorem not_codesAlike {B : Build} {p p' : BcbPrior} {al : Alloc} {msg : List UInt8}
    {l l' : List (Cum × UInt8)} {n n' : Nat} (hs : structural p = structural p')
    (hp : (encodePayload B true p al msg (bcbCodecNew B p false)).map (·.1) =
      (payloadOf l).map some)
    (hp' : (encodePayload B true p' al msg (bcbCodecNew B p' false)).map (·.1) =
      (payloadOf l').map some)
    (hl : (payloadOf l).map List.length = .ok n) (hl' : (payloadOf l').map List.length = .ok n')
    (hne : n ≠ n') : ¬ CodesAlike B p p' := by
  intro h
  obtain ⟨comp, hcomp, rfl⟩ := map_eq_ok.1 hl
  obtain ⟨comp', hcomp', rfl⟩ := map_eq_ok.1 hl'
  rw [hcomp] at hp
  rw [hcomp'] at hp'
  exact hne (h.length_eq hs hp hp')

/-! ## Messages over records -/

/-- The whole scale for the symbol 0. -/
def zeroTable : Cum := cumOf fun b => (zeroWidths b).toNat

section Records

variable {e e1 : CecEncoder} {r : Nat} {g : Nat → Cum × UInt8}

theorem feed_zero (hle : e.low ≤ e.high) (hhigh : e.high < 2 ^ 32)
    (hdone : cecRenormEncTurn e = none) : feed e (zeroTable, 0) = .ok e := by
  have hwidth : zeroTable 0 = 0 ∧ zeroTable 1 = 2 ^ 14 ∧ zeroTable 256 = 2 ^ 14 := by decide +kernel
  obtain ⟨h0, h1, h256⟩ := hwidth
  have hnarrow : cecNarrow e.low e.high 0 (2 ^ 14) (2 ^ 14) = (e.low, e.high) := by
    rw [cecNarrow, sub32_of_le hle hhigh]
    refine Prod.ext ?_ ?_
    · dsimp only
      rw [Nat.mul_zero, Nat.zero_div]
      omega
    · dsimp only
      rw [Nat.mul_div_cancel _ (Nat.two_pow_pos 14), sub32]
      omega
  change cecEncSym e (zeroTable 0) (zeroTable 1) (zeroTable 256) = _
  rw [h0, h1, h256, cecEncSym, if_neg (by decide), hnarrow]
  exact congrArg Except.ok (Loop.run_none hdone 32)

theorem foldlM_record {start : Nat} {x : Cum × UInt8} (he : feed e (zeroTable, 0) = .ok e)
    (hzero : ∀ k < r, g (start + k) = (zeroTable, 0)) (hlast : g (start + r) = x) :
    ((List.range' start (r + 1)).map g).foldlM feed e = feed e x := by
  induction r generalizing start with
  | zero =>
    change (feed e (g start) >>= _) = _
    rw [← hlast]
    cases feed e (g (start + 0)) with
    | error f => rfl
    | ok e1 => rfl
  | succ r ih =>
    have h0 : g start = (zeroTable, 0) := hzero 0 (Nat.succ_pos r)
    rw [List.range'_succ, List.map_cons, List.foldlM_cons, h0, he]
    apply ih
    · intro k hk
      rw [Nat.add_assoc, Nat.add_comm 1 k]
      exact hzero (k + 1) (Nat.succ_lt_succ hk)
    · rw [Nat.add_assoc, Nat.add_comm 1 r]
      exact hlast

theorem foldlM_records {x y : Cum × UInt8} (hzero : ∀ k < r, g k = (zeroTable, 0))
    (hlast : g r = x) (hzero' : ∀ k < r, g (r + 1 + k) = (zeroTable, 0))
    (hlast' : g (r + 1 + r) = y) (he : feed e (zeroTable, 0) = .ok e) (hfirst : feed e x = .ok e1)
    (hstay : feed e1 (zeroTable, 0) = .ok e1) :
    ((List.range' 0 (r + 1 + (r + 1))).map g).foldlM feed e = feed e1 y := by
  rw [← List.range'_append_1, List.map_append, List.foldlM_append,
    foldlM_record he (fun k hk => (Nat.zero_add k).symm ▸ hzero k hk)
      ((Nat.zero_add r).symm ▸ hlast), hfirst, ok_bind, Nat.zero_add]
  exact foldlM_record hstay hzero' hlast'

/-- Two records. -/
def recordMsg (r : Nat) : List UInt8 :=
  List.replicate r 0 ++ 255 :: (List.replicate r 0 ++ [254])

@[simp] theorem recordMsg_length : (recordMsg r).length = (r + 1) + (r + 1) := by
  simp only [recordMsg, List.length_append, List.length_cons, List.length_replicate,
    List.length_nil]
  omega

theorem recordMsg_zero {k : Nat} (hk : k < r) :
    (recordMsg r).getD k 0 = 0 ∧ (recordMsg r).getD (r + 1 + k) 0 = 0 := by
  constructor
  · rw [recordMsg, List.getD_append _ _ _ _ (by rwa [List.length_replicate]),
      List.getD_eq_getElem _ _ (by rwa [List.length_replicate]), List.getElem_replicate]
  · have hk1 : r + 1 + k - r = k + 1 := by omega
    rw [recordMsg, List.getD_append_right _ _ _ _ (by rw [List.length_replicate]; omega),
      List.length_replicate, hk1, List.getD_cons_succ,
      List.getD_append _ _ _ _ (by rwa [List.length_replicate]),
      List.getD_eq_getElem _ _ (by rwa [List.length_replicate]), List.getElem_replicate]

theorem recordMsg_last :
    (recordMsg r).getD r 0 = 255 ∧ (recordMsg r).getD (r + 1 + r) 0 = 254 := by
  constructor
  · rw [recordMsg, List.getD_append_right _ _ _ _ (by rw [List.length_replicate]),
      List.length_replicate, Nat.sub_self]
    rfl
  · have hk1 : r + 1 + r - r = r + 1 := by omega
    rw [recordMsg, List.getD_append_right _ _ _ _ (by rw [List.length_replicate]; omega),
      List.length_replicate, hk1, List.getD_cons_succ,
      List.getD_append_right _ _ _ _ (by rw [List.length_replicate]), List.length_replicate,
      Nat.sub_self]
    rfl

end Records

theorem exists_feed {x : Cum × UInt8} (h : (feed cecEncNew x).map (fun e =>
    decide (e.low ≤ e.high ∧ e.high < 2 ^ 32 ∧ (cecRenormEncTurn e).isNone)) = .ok true) :
    ∃ e, feed cecEncNew x = .ok e ∧ feed e (zeroTable, 0) = .ok e := by
  obtain ⟨e, he, hdone⟩ := map_eq_ok.1 h
  obtain ⟨hle, hhigh, hnone⟩ := of_decide_eq_true hdone
  exact ⟨e, he, feed_zero hle hhigh (Option.isNone_iff_eq_none.1 hnone)⟩

end Bcb.Api
