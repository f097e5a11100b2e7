import Bcb.Codec.Cache
import Bcb.RangeCoder.RoundTrip

namespace Bcb.Codec

open RangeCoder Bt Prior

/-- Every table handed to the range coder is one it can code with. -/
def TablesCodable (B : Build) (p : BcbPrior) : Prop :=
  ∀ {c c' : BcbCodec} {cum : Cum}, Reachable B p c →
    codecDist B true p rcScale c = .ok (cum, c') → cum.Codable

/-- Two codecs at the same place of the same message. -/
structure Twin (B : Build) (p : BcbPrior) (s t : BcbCodec) : Prop where
  left : Reachable B p s
  right : Reachable B p t
  bare_eq : bare s = bare t

variable {B : Build} {p : BcbPrior} {s s1 s2 t c c' : BcbCodec} {b sym : UInt8}

theorem Twin.dist {cum : Cum} (h : Twin B p s t)
    (hdist : codecDist B true p rcScale s = .ok (cum, s1)) :
    ∃ t1, codecDist B true p rcScale t = .ok (cum, t1) ∧ Twin B p s1 t1 := by
  obtain ⟨hs1, hbare⟩ := codecDist_ok h.left.coherent hdist
  rw [h.bare_eq] at hbare
  obtain ⟨t1, ht1⟩ := codecDist_ok_of_bare h.right.coherent hbare
  obtain ⟨ht, -⟩ := codecDist_ok h.right.coherent ht1
  refine ⟨t1, ht1, h.left.dist hdist, h.right.dist ht1, ?_⟩
  rw [hs1, ht, h.bare_eq]

theorem Twin.train (h : Twin B p s t) (htrain : codecTrain p sym s = .ok s1) :
    ∃ t1, codecTrain p sym t = .ok t1 ∧ Twin B p s1 t1 := by
  have hbare : (codecTrain p sym t).map bare = .ok (bare s1) := by
    rw [codecTrain_bare, ← h.bare_eq, ← codecTrain_bare, htrain]
    rfl
  obtain ⟨t1, ht1, heq⟩ := map_eq_ok.1 hbare
  exact ⟨t1, ht1, h.left.train htrain, h.right.train ht1, heq.symm⟩

theorem lockstep_plain (hcod : TablesCodable B p) :
    Lockstep (bcbCodecCecBt B true p) (bcbCodecCecBt B true p) (fun _ b => pure b)
      (fun _ b => b) (Twin B p) where
  step := by
    intro s s1 s2 t b sym cum hR hpre hdist htrain
    obtain rfl := Except.ok.inj hpre
    obtain ⟨t1, hdistD, hR1⟩ := hR.dist hdist
    obtain ⟨t2, htrainD, hR2⟩ := hR1.train htrain
    exact ⟨hcod hR.left hdist, t1, t2, hdistD, htrainD, rfl, hR2⟩

theorem actualByte_bare (h : bare c = bare c') (b : UInt8) :
    actualByte p c b = actualByte p c' b := by
  change actualByte p (bare c) b = actualByte p (bare c') b
  rw [h]

theorem codecTrain_scLast (hs : structural p = true) (h : codecTrain p b c = .ok c') :
    actualByte p c b = .ok c'.scLast := by
  rcases codecTrain_ok h with ⟨-, actual, hact, rfl⟩ | ⟨hs', -⟩
  · exact hact
  · rw [hs] at hs'
    cases hs'

theorem actualByte_encXform (hs : structural p = true) (hsd : c.sdelta = true)
    (hpos : c.scPos < p.schemaPos) (h : bcbCodecEncXform p c b = .ok sym) :
    actualByte p c sym = .ok b := by
  have hwrap : wrapPos p c.scPos = c.scPos := if_neg (Nat.not_le_of_lt hpos)
  simp only [bcbCodecEncXform, hs, hsd, Bool.and_self, if_true, hwrap] at h
  obtain ⟨m, hm, h⟩ := bind_eq_ok.1 h
  simp only [actualByte, hsd, if_true, hm, ok_bind]
  split_ifs at h ⊢ with hdelta
  · obtain rfl := Except.ok.inj h
    change Except.ok (b - c.scPrev c.scPos + c.scPrev c.scPos) = _
    rw [UInt8.sub_add_cancel]
  · obtain rfl := Except.ok.inj h
    rfl

theorem lockstep_sdelta (hcod : TablesCodable B p) (hs : structural p = true)
    (hpos : p.schemaPos = p.schemaRec) :
    Lockstep (bcbCodecCecBt B true p) (bcbCodecCecBt B true p) (bcbCodecEncXform p)
      (fun c _ => c.scLast) (fun s t => Twin B p s t ∧ s.sdelta = true) where
  step := by
    rintro s s1 s2 t b sym cum ⟨hR, hsd⟩ hpre hdist htrain
    obtain ⟨t1, hdistD, hR1⟩ := hR.dist hdist
    obtain ⟨t2, htrainD, hR2⟩ := hR1.train htrain
    have hs1 : bare s1 = bare s := (codecDist_ok hR.left.coherent hdist).1
    have hplace : s.scPos < p.schemaPos := by
      rw [hpos]
      exact hR.left.coherent.pos hs
    have hact : actualByte p t1 sym = .ok b := by
      rw [actualByte_bare (hR1.bare_eq.symm.trans hs1)]
      exact actualByte_encXform hs hsd hplace hpre
    have hlast : t2.scLast = b := by
      have hlast := codecTrain_scLast hs htrainD
      rw [hact] at hlast
      exact (Except.ok.inj hlast).symm
    refine ⟨hcod hR.left hdist, t1, t2, hdistD, htrainD, hlast, hR2, ?_⟩
    have hsd1 : s1.sdelta = true := (congrArg BcbCodec.sdelta hs1).trans hsd
    rcases codecTrain_ok htrain with ⟨-, actual, -, rfl⟩ | ⟨-, rfl⟩
    · exact hsd1
    · exact hsd1

end Bcb.Codec
