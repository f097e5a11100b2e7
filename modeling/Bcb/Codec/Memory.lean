import Bcb.Bt.Checked
import Bcb.Bt.Faults
import Bcb.Codec.Cache
import Bcb.Prior.Accepted
import Bcb.Prior.LandmarkIndex

namespace Bcb.Codec

open Lib RangeCoder Bt Prior

variable {B : Build} {im : Image} {p : BcbPrior} {c c' : BcbCodec}

theorem readByte_of_lt {off i n : Nat} (h : off + n ≤ im.len) (hi : i < n) :
    ∃ b, readByte im (off + i) = .ok b := ⟨_, readByte_ok (by omega)⟩

theorem link_lt {v : Int} (h : v < 2 ^ 31) {k : Nat} (hk : link v = some k) : k < 2 ^ 31 := by
  unfold link at hk
  split_ifs at hk with hneg
  obtain rfl := Option.some.inj hk
  omega

theorem readBtEntry_ctxNext {off : Nat} {e : BtEntry} (h : readBtEntry im off = .ok e) :
    e.ctxNext < 2 ^ 31 := by
  obtain ⟨_, -, h⟩ := bind_eq_ok.1 h
  obtain rfl : btEntryAt im off = e := Except.ok.inj h
  rw [btEntryAt_ctxNext]
  exact im.i32_lt (off + 32)

theorem readCtxEntry_firstEntry {off : Nat} {e : CtxEntry} (h : readCtxEntry im off = .ok e) :
    e.firstEntry < 2 ^ 31 := by
  obtain ⟨_, -, h⟩ := bind_eq_ok.1 h
  obtain rfl : ctxEntryAt im off = e := Except.ok.inj h
  rw [ctxEntryAt_firstEntry]
  exact im.i32_lt (off + 36)

theorem reader_sound (hp : priorParse B im = .ok (some p)) (hslots : p.snap.ctxNslots ≤ 2 ^ 32)
    (w : Window) : Sound B (reader p w) := by
  obtain ⟨hok, hvalid, slot, mask, -, rfl⟩ := priorParse_some hp
  obtain ⟨hsame, hv⟩ := btV3Validate_ok hvalid
  have hb := headerOk_bounds hok
  obtain ⟨j, hj⟩ := hv.pow
  have hpos : (snapshot im (header im)).ctxNslots ≠ 0 := by
    rw [hj]
    exact (Nat.two_pow_pos j).ne'
  have hmask : (reader (priorOf im (header im) slot mask) w).ctxMask =
      (snapshot im (header im)).ctxNslots - 1 := if_neg hpos
  have hsucc : (snapshot im (header im)).ctxNslots - 1 + 1 = (snapshot im (header im)).ctxNslots :=
    Nat.succ_pred_eq_of_ne_zero hpos
  refine ⟨⟨j, ?_, ?_⟩, ?_, ?_, ?_⟩
  · change (snapshot im (header im)).ctxNslots ≤ 2 ^ 32 at hslots
    rw [hj] at hslots
    exact (Nat.pow_le_pow_iff_right (by decide)).1 hslots
  · rw [hmask, hj]
  · rw [hmask, hsucc]
    intro i hi
    obtain ⟨v, hv', hused⟩ := hv.slot i hi
    refine ⟨v, hv', fun k hk => ?_⟩
    obtain ⟨e, he, l, hl, hread⟩ := hv.ctx k (hused k hk)
    refine ⟨e, he, (snapshot im (header im)).cell, l, hl, ?_, hread⟩
    apply hl.length_le
    apply hl.mem_lt
    · exact fun k hk => link_lt (readCtxEntry_firstEntry he) hk
    · exact fun i hi _ k hk => link_lt (readBtEntry_ctxNext (hread i hi)) hk
  · rw [hmask, hsucc]
    exact hv.free
  · intro i hi
    simp only [BtV3Snapshot.sameBuild, Bool.and_eq_true, decide_eq_true_eq] at hsame
    have hbytes : (header im).bloomBytes = B.bloomBits / 8 := hsame.2
    exact readByte_of_lt hb.bloom (hbytes ▸ hi)

section Calls

variable (hp : priorParse B im = .ok (some p))

include hp

theorem lmLookup_ok (ctx : List UInt8) :
    ∃ o, lmLookup p.toLandmarks ctx = .ok o ∧ ∀ k, o = some k → k < p.lmK := by
  have hlm := priorParse_landmarks hp
  refine ⟨_, lmLookup_eq hlm.read hlm.lt hlm.index ctx, fun k hk => ?_⟩
  obtain ⟨-, hmem, -⟩ := List.find?_range_eq_some.1 hk
  have hlt : k < min p.lmK (2 ^ 31) := List.mem_range.1 hmem
  omega

theorem landmarkDist_ok (c : BcbCodec) (scale : Nat) : ∃ o, landmarkDist p c scale = .ok o := by
  unfold landmarkDist
  split_ifs
  · obtain ⟨o, ho, hk⟩ := lmLookup_ok hp (c.window.last p.lmN)
    rw [ho, ok_bind]
    cases o with
    | none => exact ⟨none, rfl⟩
    | some k =>
      obtain ⟨w, hw, -⟩ := (priorParse_landmarks hp).row k (hk k rfl)
      simp only [hw, ok_bind]
      exact ⟨_, rfl⟩
  · exact ⟨none, rfl⟩

theorem structuralDist_ok (hs : structural p = true) (hc : Coherent B p c) :
    ∃ cum, structuralDist p c rcScale = .ok cum := by
  have hread := priorParse_schema hp (structural_rec_pos hs).1.ne'
  have hpos := wrapPos_lt (structural_rec_pos hs).2 c.scPos
  obtain ⟨w, hw, -⟩ := hread.row _ hpos
  obtain ⟨m, hm⟩ := hread.mode _ hpos
  -- the precomputed tables are what the rows give
  rw [structuralDist_bare hc hs]
  have hbare : wrapPos p (bare c).scPos = wrapPos p c.scPos := rfl
  simp only [structuralDist, hbare, hw, hm, ok_bind]
  split_ifs
  · exact ⟨_, rfl⟩
  · exact ⟨_, rfl⟩
  · exact ⟨_, rfl⟩

theorem scPos_lt (hs : structural p = true) (hc : Coherent B p c) : c.scPos < p.schemaPos := by
  rw [(priorParse_schema hp (structural_rec_pos hs).1.ne').pos]
  exact hc.pos hs

theorem codecTrain_total (hc : Coherent B p c) (b : UInt8) : ∃ c', codecTrain p b c = .ok c' := by
  unfold codecTrain
  split_ifs with hs
  · have hread := priorParse_schema hp (structural_rec_pos hs).1.ne'
    obtain ⟨m, hm⟩ := hread.mode _ (scPos_lt hp hs hc)
    have hact : ∃ a, actualByte p c b = .ok a := by
      simp only [actualByte, hm, ok_bind]
      split_ifs
      · exact ⟨_, rfl⟩
      · exact ⟨_, rfl⟩
      · exact ⟨_, rfl⟩
    obtain ⟨a, ha⟩ := hact
    rw [ha]
    exact ⟨_, rfl⟩
  · exact ⟨_, rfl⟩

theorem bcbCodecEncXform_total (b : UInt8) : ∃ sym, bcbCodecEncXform p c b = .ok sym := by
  unfold bcbCodecEncXform
  split_ifs with hsd
  · have hs : structural p = true := (Bool.and_eq_true_iff.1 hsd).1
    have hread := priorParse_schema hp (structural_rec_pos hs).1.ne'
    obtain ⟨m, hm⟩ := hread.mode _ (wrapPos_lt (structural_rec_pos hs).2 c.scPos)
    simp only [hm, ok_bind]
    split_ifs
    · exact ⟨_, rfl⟩
    · exact ⟨_, rfl⟩
  · exact ⟨_, rfl⟩

variable (hslots : p.snap.ctxNslots ≤ 2 ^ 32)

include hslots

theorem throws_codecDist (hc : Reachable B p c) :
    Throws Arithmetic (codecDist B true p rcScale c) := by
  unfold codecDist
  split_ifs with hs
  · obtain ⟨cum, hcum⟩ := structuralDist_ok hp hs hc.coherent
    rw [hcum]
    exact .ok _
  · obtain ⟨o, ho⟩ := landmarkDist_ok hp c rcScale
    rw [ho, ok_bind]
    cases o with
    | some cum => exact .ok _
    | none =>
      have hdist := throws_btV3DistributionR true (reader_sound hp hslots c.window) rcScale
      simp only [btDist]
      cases c.distcache with
      | none => exact hdist.bind fun _ _ => .ok _
      | some cache =>
        dsimp only
        split_ifs
        · exact .ok _
        · exact hdist.bind fun _ _ => .ok _

end Calls

end Bcb.Codec
