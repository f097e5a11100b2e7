import Bcb.Codec.Rows

/-! The delta symbols of a structural prior and the rotated tables go together: the same
record state, the same width and the same total at every byte. -/

namespace Bcb.Codec

open RangeCoder Bt Prior

/-- What the coder takes of a table for a byte: its width, and the total. -/
def coded (cum : Cum) (b : UInt8) : Nat × Nat := (cum (b.toNat + 1) - cum b.toNat, cum 256)

/-- A codec driven over a message, as `cec_enc_byte` drives it: the table, then the training
with the coded symbol. -/
def codeAll (B : Build) (luts : Bool) (p : BcbPrior) (pre : BcbCodec → UInt8 → Outcome UInt8) :
    List UInt8 → BcbCodec → Outcome (List (Nat × Nat) × BcbCodec)
  | [], c => pure ([], c)
  | b :: msg, c => do
    let sym ← pre c b
    let (cum, c) ← codecDist B luts p rcScale c
    let c ← codecTrain p sym c
    let (ws, c) ← codeAll B luts p pre msg c
    return (coded cum sym :: ws, c)

/-- The same place in the same records. -/
structure SameRecord (c d : BcbCodec) : Prop where
  pos : c.scPos = d.scPos
  prev : c.scPrev = d.scPrev
  cur : c.scCur = d.scCur

/-- The codec of the delta symbols, and the codec of the rotated tables. -/
structure Paired (B : Build) (p : BcbPrior) (c d : BcbCodec) : Prop extends SameRecord c d where
  left : Coherent B p c
  right : Coherent B p d
  sdelta : c.sdelta = true
  rotation : d.sdelta = false

variable {B : Build} {im : Image} {p : BcbPrior} {c d : BcbCodec} {w : UInt8 → Nat} {b : UInt8}

theorem rowCum_coded (hw : ∀ b, w b < 2 ^ 16) (b : UInt8) :
    coded (rowCum rcScale w) b = (if widthSum w 256 = rcScale then w b else 64, rcScale) := by
  have hlt := widthSum_lt hw
  have hb : b.toNat < 256 := b.toNat_lt
  have hmono : widthSum w (b.toNat + 1) ≤ widthSum w 256 := widthSum_mono w hb
  have hmono' : widthSum w b.toNat ≤ widthSum w (b.toNat + 1) := widthSum_mono w (Nat.le_succ _)
  have huniform : ∀ n ≤ 256, uniformCum rcScale n = 64 * n := by
    intro n hn
    have hsum : ∀ m, widthSum (fun _ => if rcScale / 256 = 0 then 1 else rcScale / 256) m =
        64 * m := by
      intro m
      simp [widthSum, rcScale, Nat.mul_comm]
    rw [uniformCum, cumOf_eq (by rw [hsum]; omega), hsum]
  unfold coded rowCum
  rw [cumOf_eq hlt]
  split_ifs with hsum
  · rw [cumOf_eq hlt, hsum, cumOf_eq (hmono.trans_lt hlt),
      cumOf_eq ((hmono'.trans hmono).trans_lt hlt), widthSum_succ, UInt8.ofNat_toNat]
    exact Prod.ext (Nat.add_sub_cancel_left _ _) rfl
  · rw [huniform _ le_rfl, huniform _ hb, huniform _ hb.le]
    exact Prod.ext (by omega) rfl

theorem bare_record (h : bare c = bare d) : SameRecord c d ∧ c.sdelta = d.sdelta := by
  have hfields := congrArg (fun c => (c.scPos, c.scPrev, c.scCur, c.sdelta)) h
  simp only [bare, Prod.mk.injEq] at hfields
  obtain ⟨hpos, hprev, hcur, hsd⟩ := hfields
  exact ⟨⟨hpos, hprev, hcur⟩, hsd⟩

theorem rowCum_coded_rotate (hw : ∀ b, w b < 2 ^ 16) (b sh : UInt8) :
    coded (rowCum rcScale fun b => w (b - sh)) b = coded (rowCum rcScale w) (b - sh) := by
  rw [rowCum_coded (fun b => hw (b - sh)), rowCum_coded hw, widthSum_rotate]

section Step

variable (hs : structural p = true) (hp : SchemaReadable p)

include hs hp

/-- The symbol that codes a byte, and the byte that training with it brings back. -/
theorem encXform_sdelta (hc : Coherent B p c) (hsd : c.sdelta = true) {m : UInt8}
    (hm : p.schemaModes c.scPos = .ok m) (b : UInt8) :
    bcbCodecEncXform p c b = .ok (if m ≠ 0 then b - c.scPrev c.scPos else b) ∧
      actualByte p c (if m ≠ 0 then b - c.scPrev c.scPos else b) = .ok b := by
  have hwrap := wrapPos_of_coherent hs hp hc
  constructor
  · simp only [bcbCodecEncXform, hs, hsd, Bool.and_self, if_true, hwrap, hm, ok_bind]
    split_ifs <;> rfl
  · simp only [actualByte, hsd, if_true, hm, ok_bind]
    split_ifs
    · rw [UInt8.sub_add_cancel]
      rfl
    · rfl

theorem codecDist_sdelta (hc : Coherent B p c) (hsd : c.sdelta = true)
    (hw : p.schemaCum c.scPos = .ok w) :
    ∃ c', codecDist B true p rcScale c = .ok (rowCum rcScale w, c') ∧ bare c' = bare c := by
  have hwrap : wrapPos p (bare c).scPos = c.scPos := by
    exact wrapPos_of_coherent (c := c) hs hp hc
  have hbare : codecDist B true p rcScale (bare c) = .ok (rowCum rcScale w, bare c) := by
    have hsd' : (bare c).sdelta = true := hsd
    have hpre : (bare c).scCumPre = none := rfl
    simp only [codecDist, hs, if_true, structuralDist, hsd', hpre, hwrap, hw, ok_bind]
    rfl
  obtain ⟨c', hc'⟩ := codecDist_ok_of_bare hc hbare
  exact ⟨c', hc', (codecDist_ok hc hc').1⟩

theorem codecDist_rotation (hc : Coherent B p c) (hsd : c.sdelta = false) {m : UInt8}
    (hm : p.schemaModes c.scPos = .ok m) (hw : p.schemaCum c.scPos = .ok w) :
    ∃ c', codecDist B true p rcScale c =
        .ok (rowCum rcScale fun b => w (if m ≠ 0 then b - c.scPrev c.scPos else b), c') ∧
      bare c' = bare c := by
  have hwrap : wrapPos p (bare c).scPos = c.scPos := by
    exact wrapPos_of_coherent (c := c) hs hp hc
  have hbare : codecDist B true p rcScale (bare c) =
      .ok (rowCum rcScale fun b => w (if m ≠ 0 then b - c.scPrev c.scPos else b), bare c) := by
    have hsd' : (bare c).sdelta = false := hsd
    simp only [codecDist, hs, if_true, structuralDist, hsd', hwrap, hw, hm, ok_bind,
      Bool.false_eq_true, if_false]
    split_ifs <;> rfl
  obtain ⟨c', hc'⟩ := codecDist_ok_of_bare hc hbare
  exact ⟨c', hc', (codecDist_ok hc hc').1⟩

theorem Paired.step (h : Paired B p c d) (b : UInt8) :
    ∃ sym cum cum' c1 d1 c2 d2, bcbCodecEncXform p c b = .ok sym ∧
      codecDist B true p rcScale c = .ok (cum, c1) ∧ codecTrain p sym c1 = .ok c2 ∧
      codecDist B true p rcScale d = .ok (cum', d1) ∧ codecTrain p b d1 = .ok d2 ∧
      coded cum sym = coded cum' b ∧ Paired B p c2 d2 := by
  have hpos : c.scPos < p.schemaPos := by
    rw [hp.pos]
    exact h.left.pos hs
  obtain ⟨m, hm⟩ := hp.mode _ hpos
  obtain ⟨w, hw, hw16⟩ := hp.row _ hpos
  obtain ⟨hsym, hactual⟩ := encXform_sdelta hs hp h.left h.sdelta hm b
  obtain ⟨c1, hdist, hbare⟩ := codecDist_sdelta hs hp h.left h.sdelta hw
  obtain ⟨d1, hdist', hbare'⟩ :=
    codecDist_rotation hs hp h.right h.rotation (h.pos ▸ hm) (h.pos ▸ hw)
  have hact1 : actualByte p c1 (if m ≠ 0 then b - c.scPrev c.scPos else b) = .ok b := by
    rw [actualByte_bare hbare]
    exact hactual
  have hact2 : actualByte p d1 b = .ok b := by
    rw [actualByte_bare hbare', actualByte, h.rotation]
    rfl
  obtain ⟨c2, htrain, hcur, hnext, hprev, hsd⟩ := codecTrain_structural hs hact1
  obtain ⟨d2, htrain', hcur', hnext', hprev', hsd'⟩ := codecTrain_structural hs hact2
  obtain ⟨⟨hpos1, hprev1, hcur1⟩, hsd1⟩ := bare_record hbare
  obtain ⟨⟨hpos2, hprev2, hcur2⟩, hsd2⟩ := bare_record hbare'
  refine ⟨_, _, _, c1, d1, c2, d2, hsym, hdist, htrain, hdist', htrain', ?_, ?_⟩
  · rw [← h.pos, ← h.prev]
    by_cases hdelta : m ≠ 0
    · simp only [if_pos hdelta]
      exact (rowCum_coded_rotate hw16 b _).symm
    · simp only [if_neg hdelta]
  · refine ⟨⟨?_, ?_, ?_⟩, (h.left.dist hdist).train htrain, (h.right.dist hdist').train htrain',
      ?_, ?_⟩
    · rw [hnext, hnext', hpos1, hpos2, h.pos]
    · rw [hprev, hprev', hpos1, hpos2, hprev1, hprev2, hcur1, hcur2, h.pos, h.prev, h.cur]
    · rw [hcur, hcur', hpos1, hpos2, hcur1, hcur2, h.pos, h.cur]
    · rw [hsd, hsd1, h.sdelta]
    · rw [hsd', hsd2, h.rotation]

theorem Paired.codeAll (h : Paired B p c d) (msg : List UInt8) :
    ∃ ws c' d', codeAll B true p (bcbCodecEncXform p) msg c = .ok (ws, c') ∧
      codeAll B true p (fun _ b => pure b) msg d = .ok (ws, d') ∧ Paired B p c' d' := by
  induction msg generalizing c d with
  | nil => exact ⟨[], c, d, rfl, rfl, h⟩
  | cons b msg ih =>
    obtain ⟨sym, cum, cum', c1, d1, c2, d2, hsym, hdist, htrain, hdist', htrain', hcoded, h2⟩ :=
      h.step hs hp b
    obtain ⟨ws, c', d', hws, hws', h'⟩ := ih h2
    refine ⟨coded cum sym :: ws, c', d', ?_, ?_, h'⟩
    · simp only [Codec.codeAll, hsym, hdist, htrain, hws, ok_bind]
      rfl
    · rw [hcoded]
      change (codecDist B true p rcScale d >>= _) = _
      simp only [hdist', htrain', hws', ok_bind]
      rfl

end Step

/-- A message coded by delta symbols, with the precomputed tables or without, and by rotated
tables. -/
theorem codeAll_sdelta (hp : priorParse B im = .ok (some p)) (hs : structural p = true)
    (hc : Reachable B p c) (hd : Reachable B p d) (al al' : Bool) (msg : List UInt8) :
    ∃ c1 d1 ws c' d', bcbCodecSetSdelta B p al true (bcbCodecBegin B p c) = .ok c1 ∧
      bcbCodecSetSdelta B p al' false (bcbCodecBegin B p d) = .ok d1 ∧
      codeAll B true p (bcbCodecEncXform p) msg c1 = .ok (ws, c') ∧
      codeAll B true p (fun _ b => pure b) msg d1 = .ok (ws, d') ∧ SameRecord c' d' := by
  have hread := priorParse_schema hp (structural_rec_pos hs).1.ne'
  obtain ⟨c1, hc1⟩ :=
    bcbCodecSetSdelta_total (B := B) (fun _ => hread) al true (bcbCodecBegin B p c)
  obtain ⟨d1, hd1⟩ :=
    bcbCodecSetSdelta_total (B := B) (fun _ => hread) al' false (bcbCodecBegin B p d)
  have hstart := bare_start hc.coherent hc1
  have hstart' := bare_start hd.coherent hd1
  obtain ⟨⟨hpos, hprev, hcur⟩, hsd⟩ := bare_record (d := start p true) hstart
  obtain ⟨⟨hpos', hprev', hcur'⟩, hsd'⟩ := bare_record (d := start p false) hstart'
  have h1 : Paired B p c1 d1 := by
    refine ⟨⟨?_, ?_, ?_⟩, (hc.begin.setSdelta hc1).coherent, (hd.begin.setSdelta hd1).coherent,
      ?_, ?_⟩
    · rw [hpos, hpos']
      rfl
    · rw [hprev, hprev']
      rfl
    · rw [hcur, hcur']
      rfl
    · rw [hsd, start, hs]
      rfl
    · rw [hsd', start, Bool.and_false]
  obtain ⟨ws, c', d', hrun, hrun', h'⟩ := h1.codeAll hs hread msg
  exact ⟨c1, d1, ws, c', d', hc1, hd1, hrun, hrun', h'.toSameRecord⟩

theorem codeAll_sdelta_delta :
    ∃ c1 d1 ws c' d', bcbCodecSetSdelta .plain (schemaPrior 1 fun _ => 3) true true
        (bcbCodecBegin .plain (schemaPrior 1 fun _ => 3)
          (bcbCodecNew .plain (schemaPrior 1 fun _ => 3) true)) = .ok c1 ∧
      bcbCodecSetSdelta .plain (schemaPrior 1 fun _ => 3) true false
        (bcbCodecBegin .plain (schemaPrior 1 fun _ => 3)
          (bcbCodecNew .plain (schemaPrior 1 fun _ => 3) true)) = .ok d1 ∧
      codeAll .plain true (schemaPrior 1 fun _ => 3)
        (bcbCodecEncXform (schemaPrior 1 fun _ => 3)) [5, 9, 9] c1 = .ok (ws, c') ∧
      codeAll .plain true (schemaPrior 1 fun _ => 3) (fun _ b => pure b) [5, 9, 9] d1 =
        .ok (ws, d') ∧ SameRecord c' d' :=
  codeAll_sdelta (priorParse_schemaImage 1 _) (structural_schemaPrior 1 _) (.new true) (.new true)
    true true [5, 9, 9]

end Bcb.Codec
