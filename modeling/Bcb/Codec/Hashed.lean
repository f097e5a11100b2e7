import Bcb.Bt.Agree
import Bcb.Codec.Tables
import Bcb.Prior.Regions
import Mathlib.Data.List.Find

/-! The bytes that two priors of one header and one id have in common: where a header keeps what
coding reads within these, the priors are read alike. -/

namespace Bcb.Codec

open Lib Bt Prior

theorem btEntry_seen {n off : Nat} {im im' : Image} (h : SameUpTo n im im') (hoff : off + 32 ≤ n) :
    (btEntryAt im off).seen = (btEntryAt im' off).seen :=
  Prod.ext (h.byte _ (by omega)) (h.u32 (by omega))

/-- The same header, and the same bytes for the id. -/
structure SameHashed (im im' : Image) : Prop where
  header : header im = header im'
  byte : ∀ i < (Prior.header im).fileSize, im.byteAt i = im'.byteAt i

/-- The bytes of the id, and the header, which is the same anyway. -/
def covered (h : BcbpHeader) : Nat := max headerSize h.fileSize

/-- The landmarks whose index is an `int`. -/
def lmRead (h : BcbpHeader) : Nat := min (h.lmK % 2 ^ 32) (2 ^ 31)

/-- A context can be found: there is one, and a slot beside the free one. -/
def Findable (h : BcbpHeader) : Prop := h.schemaRec = 0 ∧ h.ctxUsed ≠ 0 ∧ 2 ≤ h.ctxNslots

instance (h : BcbpHeader) : Decidable (Findable h) := inferInstanceAs (Decidable (_ ∧ _ ∧ _))

/-- The context pool up to the last entry that an `int` leads to.  Without chains the links of an
entry are not read. -/
def ctxRead (h : BcbpHeader) : Nat :=
  ctxEntrySize * (min h.ctxUsed (2 ^ 31) - 1) + if h.poolUsed = 0 then 32 else ctxEntrySize

/-- The pool likewise.  A single entry has no successor. -/
def poolRead (h : BcbpHeader) : Nat :=
  btEntrySize * (min h.poolUsed (2 ^ 31) - 1) + if h.poolUsed = 1 then 32 else btEntrySize

/-- How far into a region coding can read: into the modes and rows of a record prior, into the
landmarks of another, and into its tables where a context can be found. -/
def reach (h : BcbpHeader) : Region → Nat
  | .pool => if Findable h ∧ h.poolUsed ≠ 0 then poolRead h else 0
  | .ctxPool => if Findable h then ctxRead h else 0
  | .ctxSlot => if Findable h then 4 * min h.ctxNslots (2 ^ 32) else 0
  | .bloom => if Findable h then h.bloomBytes else 0
  | .lmCtx => if h.schemaRec = 0 then h.lmN * lmRead h else 0
  | .lmCum => if h.schemaRec = 0 then 512 * lmRead h else 0
  | .schemaModes => if h.schemaRec = 0 then 0 else h.schemaPos
  | .schemaCum => if h.schemaRec = 0 then 0 else 512 * h.schemaPos

/-- What coding can read lies in the bytes in common. -/
def Hashed (h : BcbpHeader) : Prop :=
  ∀ s : Region, reach h s ≠ 0 → s.off h + reach h s ≤ covered h

theorem Hashed.within {h : BcbpHeader} (hh : Hashed h) {s : Region} {n : Nat}
    (hs : reach h s = n) (hn : 0 < n) : s.off h + n ≤ covered h := by
  subst hs
  exact hh s hn.ne'

theorem ctxRead_pos (h : BcbpHeader) : 0 < ctxRead h := by
  rw [ctxRead]
  split_ifs <;> simp [ctxEntrySize]

theorem poolRead_pos (h : BcbpHeader) : 0 < poolRead h := by
  rw [poolRead]
  split_ifs <;> simp [btEntrySize]

/-- Two priors that coding cannot tell apart. -/
structure SameModel (B : Build) (p p' : BcbPrior) : Prop where
  id : p.id = p'.id
  schemaRec : p.schemaRec = p'.schemaRec
  schemaPos : p.schemaPos = p'.schemaPos
  modes : structural p = true → ∀ i < p.schemaPos, p.schemaModes i = p'.schemaModes i
  rows : structural p = true → ∀ i < p.schemaPos, p.schemaCum i = p'.schemaCum i
  landmark : structural p = false → ∀ (c : BcbCodec) (scale : Nat),
    landmarkDist p c scale = landmarkDist p' c scale
  distribution : structural p = false → ∀ (w : Window) (scale : Nat),
    btV3DistributionR B true (reader p w) scale =
      btV3DistributionR B true (reader p' w) scale

section Accepted

variable {B : Build} {im im' : Image} {p p' : BcbPrior}

theorem headerOk_fileSize {h : BcbpHeader} {len : Nat} (hok : headerOk h len = true) :
    h.fileSize ≤ len := by
  simp only [headerOk, Bool.and_eq_true, decide_eq_true_eq] at hok
  obtain ⟨⟨⟨⟨⟨⟨⟨⟨⟨⟨-, -⟩, hfile⟩, -⟩, -⟩, -⟩, -⟩, -⟩, -⟩, -⟩, -⟩ := hok
  exact hfile

theorem SameHashed.upTo (h : SameHashed im im') (hp : priorParse B im = .ok (some p))
    (hp' : priorParse B im' = .ok (some p')) : SameUpTo (covered (Prior.header im)) im im' := by
  obtain ⟨hok, -⟩ := priorParse_some hp
  obtain ⟨hok', -⟩ := priorParse_some hp'
  rw [← h.header] at hok'
  refine ⟨max_le (priorParse_headerSize_le hp) (headerOk_fileSize hok),
    max_le (priorParse_headerSize_le hp') (headerOk_fileSize hok'), ?_⟩
  intro i hi
  rcases lt_max_iff.1 hi with hi | hi
  · exact byteAt_of_header h.header hi
  · exact h.byte i hi

theorem SameHashed.id (h : SameHashed im im') (hp : priorParse B im = .ok (some p))
    (hp' : priorParse B im' = .ok (some p')) : p.id = p'.id := by
  have hbytes : im.bytesAt 0 (Prior.header im).fileSize =
      im'.bytesAt 0 (Prior.header im').fileSize := by
    rw [← h.header]
    exact (h.upTo hp hp').bytesAt ((Nat.zero_add _).le.trans (le_max_right _ _))
  obtain ⟨-, -, _, _, -, rfl⟩ := priorParse_some hp
  obtain ⟨-, -, _, _, -, rfl⟩ := priorParse_some hp'
  exact congrArg (fun l => (Sha256.sha256 l).take 16) hbytes

section Tables

variable {hd : BcbpHeader} {slot slot' : Nat → Int} {mask mask' : Nat}

theorem records_le (size : Nat) {i m : Nat} (h : i < m) : size * i ≤ size * (m - 1) :=
  Nat.mul_le_mul_left size (by omega)

variable (hh : Hashed hd) (hfind : Findable hd) (hsame : SameUpTo (covered hd) im im')
  (ha : Accepted B hd im) (ha' : Accepted B hd im')

include hh hfind hsame ha ha'

theorem Hashed.cell_seen {i : Nat} (hi : i < hd.poolUsed) (h31 : i < 2 ^ 31) :
    ((snapshot im hd).cell i).seen = ((snapshot im' hd).cell i).seen := by
  have hcovered : hd.offPool + poolRead hd ≤ covered hd :=
    hh.within (s := .pool) (if_pos ⟨hfind, by omega⟩) (poolRead_pos hd)
  rw [poolRead] at hcovered
  rw [BtV3Snapshot.cell_eq (ha.pool hi), BtV3Snapshot.cell_eq (ha'.pool hi)]
  apply btEntry_seen hsame
  have hend := records_le btEntrySize (lt_min hi h31)
  have hsize : 32 ≤ if hd.poolUsed = 1 then 32 else btEntrySize := by
    split_ifs
    · exact le_rfl
    · decide
  omega

theorem Hashed.next_eq (hone : hd.poolUsed ≠ 1) {i : Nat} (hi : i < hd.poolUsed)
    (h31 : i < 2 ^ 31) : (snapshot im hd).next i = (snapshot im' hd).next i := by
  have hcovered : hd.offPool + poolRead hd ≤ covered hd :=
    hh.within (s := .pool) (if_pos ⟨hfind, by omega⟩) (poolRead_pos hd)
  rw [poolRead, if_neg hone] at hcovered
  have hend := records_le btEntrySize (lt_min hi h31)
  rw [BtV3Snapshot.next, BtV3Snapshot.next, BtV3Snapshot.cell_eq (ha.pool hi),
    BtV3Snapshot.cell_eq (ha'.pool hi), hsame.btEntry (by omega)]

theorem Hashed.entry {k : Nat} (hk : k < hd.ctxUsed) (h31 : k < 2 ^ 31) (w : Window) :
    Alike (SameEntry (reader (priorOf im hd slot mask) w) (reader (priorOf im' hd slot' mask') w))
      ((snapshot im hd).ctxPool k) ((snapshot im' hd).ctxPool k) := by
  have hcovered : hd.offCtxPool + ctxRead hd ≤ covered hd :=
    hh.within (s := .ctxPool) (if_pos hfind) (ctxRead_pos hd)
  rw [ctxRead] at hcovered
  have hend := records_le ctxEntrySize (lt_min hk h31)
  have hsize : 32 ≤ if hd.poolUsed = 0 then 32 else ctxEntrySize := by
    split_ifs
    · exact le_rfl
    · decide
  have h32 : hd.offCtxPool + ctxEntrySize * k + 32 ≤ covered hd := by omega
  obtain ⟨l, hl, hlt, hchain⟩ := ha.nextBytes hk slot mask w
  obtain ⟨l', hl', hlt', hchain'⟩ := ha'.nextBytes hk slot' mask' w
  have hsucc : l = l' := by
    by_cases h0 : hd.poolUsed = 0
    · have hnil : ∀ {l : List Nat}, (∀ j ∈ l, j < hd.poolUsed ∧ j < 2 ^ 31) → l = [] := by
        intro l hlt
        apply List.eq_nil_iff_forall_not_mem.2
        intro j hj
        have hj := hlt j hj
        omega
      rw [hnil hlt, hnil hlt']
    · rw [if_neg h0] at hcovered
      rw [hsame.ctxEntry (by omega)] at hl
      by_cases hone : hd.poolUsed = 1
      · rw [hl.eq_toList fun j hj => hone ▸ (hlt j hj).1,
          hl'.eq_toList fun j hj => hone ▸ (hlt' j hj).1]
      · exact hl.unique (hl'.congr fun j hj =>
          hh.next_eq hfind hsame ha ha' hone (hlt' j hj).1 (hlt' j hj).2)
  rw [ha.ctxPool hk, ha'.ctxPool hk]
  refine .ok ⟨hsame.ctxEntry_ctx h32, hsame.byte _ (by omega), hsame.u32 (by omega), ?_⟩
  rw [hchain, hchain', ← hsucc]
  refine .ok ?_
  rw [SameChain, List.map_map, List.map_map]
  exact List.map_congr_left fun j hj =>
    hh.cell_seen hfind hsame ha ha' (hlt j hj).1 (hlt j hj).2

theorem Hashed.agree (w : Window) :
    Agree B (reader (priorOf im hd slot mask) w) (reader (priorOf im' hd slot' mask') w) := by
  have hpos := ha.nslots_pos
  refine ⟨rfl, rfl, ?_, ?_, ?_⟩
  · intro i hi h32
    rw [ha.mask_eq] at hi
    have hcovered : hd.offCtxSlot + 4 * min hd.ctxNslots (2 ^ 32) ≤ covered hd :=
      hh.within (s := .ctxSlot) (if_pos hfind) (by omega)
    exact hsame.readInt (by omega)
  · intro i hi
    rw [← ha.bloomBytes] at hi
    have hcovered : hd.offBloom + hd.bloomBytes ≤ covered hd :=
      hh.within (s := .bloom) (if_pos hfind) (by omega)
    exact hsame.readByte (by omega)
  · intro i hi _ v hv k hk
    rw [ha.mask_eq] at hi
    obtain ⟨v', hv', hlink⟩ := ha.validated.slot i (by change i < hd.ctxNslots; omega)
    obtain rfl := Except.ok.inj (hv.symm.trans hv')
    obtain ⟨_, -, hret⟩ := bind_eq_ok.1 hv
    obtain rfl : im.i32 (hd.offCtxSlot + 4 * i) = v := Except.ok.inj hret
    exact hh.entry hfind hsame ha ha' (hlink k hk) (link_lt (im.i32_lt _) hk) w

end Tables

theorem landmarkDist_congr (hk : p.lmK = p'.lmK) (hn : p.lmN = p'.lmN)
    (hlookup : ∀ ctx, lmLookup p.toLandmarks ctx = lmLookup p'.toLandmarks ctx)
    {n : Nat} (hfound : ∀ ctx k, lmLookup p.toLandmarks ctx = .ok (some k) → k < n)
    (hrow : ∀ k < n, p.lmCum k = p'.lmCum k) (c : BcbCodec) (scale : Nat) :
    landmarkDist p c scale = landmarkDist p' c scale := by
  unfold landmarkDist
  rw [← hk, ← hn, ← hlookup]
  split_ifs
  · cases h : lmLookup p.toLandmarks (c.window.last p.lmN) with
    | error e => rfl
    | ok o =>
      cases o with
      | none => rfl
      | some k =>
        rw [ok_bind, ok_bind]
        dsimp only
        rw [hrow k (hfound _ k h)]
  · rfl

section Landmarks

variable {hd : BcbpHeader} {slot slot' : Nat → Int} {mask mask' : Nat}

theorem landmark_end (h : BcbpHeader) {k : Nat} (hk : k < lmRead h) :
    k * h.lmN + h.lmN ≤ h.lmN * lmRead h ∧ 512 * k + 512 ≤ 512 * lmRead h := by
  constructor
  · rw [← Nat.succ_mul, Nat.mul_comm]
    exact Nat.mul_le_mul_left _ hk
  · omega

theorem Hashed.landmarkDist (hh : Hashed hd) (hrec : hd.schemaRec = 0)
    (hn : hd.lmK ≠ 0 → 1 ≤ hd.lmN)
    (hsame : SameUpTo (covered hd) im im')
    (hlm : LandmarksReadable (priorOf im hd slot mask).toLandmarks (lmBytes im hd))
    (hlm' : LandmarksReadable (priorOf im' hd slot' mask').toLandmarks (lmBytes im' hd))
    (c : BcbCodec) (scale : Nat) :
    landmarkDist (priorOf im hd slot mask) c scale =
      landmarkDist (priorOf im' hd slot' mask') c scale := by
  have hlookup : ∀ ctx, lmLookup (priorOf im hd slot mask).toLandmarks ctx =
      lmLookup (priorOf im' hd slot' mask').toLandmarks ctx := by
    intro ctx
    rw [lmLookup_eq hlm.read hlm.lt hlm.index, lmLookup_eq hlm'.read hlm'.lt hlm'.index]
    refine congrArg Except.ok (List.find?_congr fun k hk => ?_)
    have hk : k < lmRead hd := List.mem_range.1 hk
    have hpos : 0 < hd.lmN * lmRead hd := Nat.mul_pos (hn (by
      rw [lmRead] at hk
      omega)) (Nat.zero_lt_of_lt hk)
    have hcovered : hd.offLmCtx + hd.lmN * lmRead hd ≤ covered hd :=
      hh.within (s := .lmCtx) (if_pos hrec) hpos
    have hend := (landmark_end hd hk).1
    have hbytes : lmBytes im hd k = lmBytes im' hd k := hsame.bytesAt (by omega)
    rw [hbytes]
  have hk : (priorOf im hd slot mask).lmK = (priorOf im' hd slot' mask').lmK := rfl
  apply landmarkDist_congr hk rfl hlookup (n := lmRead hd)
  · intro ctx k hk
    rw [lmLookup_eq hlm.read hlm.lt hlm.index] at hk
    obtain ⟨-, hmem, -⟩ := List.find?_range_eq_some.1 (Except.ok.inj hk)
    exact List.mem_range.1 hmem
  · intro k hk
    have hcovered : hd.offLmCum + 512 * lmRead hd ≤ covered hd :=
      hh.within (s := .lmCum) (if_pos hrec) (by omega)
    have hend := (landmark_end hd hk).2
    exact hsame.readRow (by omega)

end Landmarks

theorem structural_of_schemaRec (hp : priorParse B im = .ok (some p)) (hs : structural p = false) :
    p.schemaRec = 0 := by
  by_contra hrec
  obtain ⟨hpos, hmax, -, -⟩ := priorParse_schema hp hrec
  have hstr : structural p = true := by
    simp only [structural, Bool.and_eq_true, decide_eq_true_eq]
    omega
  rw [hs] at hstr
  cases hstr

/-- Priors with the same header and id, whose id covers what coding reads, code alike. -/
theorem SameHashed.model (h : SameHashed im im') (hh : Hashed (Prior.header im))
    (hp : priorParse B im = .ok (some p)) (hp' : priorParse B im' = .ok (some p')) :
    SameModel B p p' := by
  have hid := h.id hp hp'
  have hsame := h.upTo hp hp'
  have hrec := structural_of_schemaRec hp
  have ha := accepted_of_priorParse hp
  have ha' : Accepted B (Prior.header im) im' := h.header ▸ accepted_of_priorParse hp'
  have hn := fun hk => (ha.bounds.lm hk).1
  have hlm := priorParse_landmarks hp
  have hlm' := priorParse_landmarks hp'
  have hheader := h.header
  obtain ⟨-, -, slot, mask, -, rfl⟩ := priorParse_some hp
  obtain ⟨-, -, slot', mask', -, rfl⟩ := priorParse_some hp'
  rw [← hheader] at hid hlm' ⊢
  refine ⟨hid, rfl, rfl, ?_, ?_, fun hs => hh.landmarkDist (hrec hs) hn hsame hlm hlm',
    fun hs w scale => ?_⟩
  · intro hs i hi
    change i < (Prior.header im).schemaPos at hi
    have hcovered : (Prior.header im).offSchemaModes + (Prior.header im).schemaPos ≤ _ :=
      hh.within (s := .schemaModes) (if_neg (structural_rec_pos hs).1.ne') (by omega)
    exact hsame.readByte (by omega)
  · intro hs i hi
    change i < (Prior.header im).schemaPos at hi
    have hcovered : (Prior.header im).offSchemaCum + 512 * (Prior.header im).schemaPos ≤ _ :=
      hh.within (s := .schemaCum) (if_neg (structural_rec_pos hs).1.ne') (by omega)
    exact hsame.readRow (by omega)
  · by_cases hfind : Findable (Prior.header im)
    · exact (hh.agree hfind hsame ha ha' w).distribution true scale
    · have hnone : (Prior.header im).ctxUsed = 0 ∨ (Prior.header im).ctxNslots < 2 := by
        by_contra hno
        push Not at hno
        exact hfind ⟨hrec hs, hno⟩
      refine btV3DistributionR_congr ?_ (fun n => ?_) true scale
      · rfl
      · rw [ha.activeAt_none hnone, ha'.activeAt_none hnone]
        exact .ok .none

end Accepted

section SameModel

variable {B : Build} {p p' : BcbPrior} {c : BcbCodec}

theorem SameModel.structural (h : SameModel B p p') : structural p = structural p' := by
  rw [Codec.structural, Codec.structural, h.schemaRec, h.schemaPos]

theorem SameModel.wrapPos (h : SameModel B p p') : wrapPos p = wrapPos p' := by
  funext pos
  rw [Codec.wrapPos, Codec.wrapPos, h.schemaPos]

theorem SameModel.structuralDist (h : SameModel B p p') (hs : Codec.structural p = true)
    (c : BcbCodec) (scale : Nat) : structuralDist p c scale = structuralDist p' c scale := by
  have hpos := wrapPos_lt (structural_rec_pos hs).2 c.scPos
  simp only [Codec.structuralDist, ← h.wrapPos, h.modes hs _ hpos, h.rows hs _ hpos]

theorem SameModel.dist (h : SameModel B p p') (c : BcbCodec) (scale : Nat) :
    codecDist B true p scale c = codecDist B true p' scale c := by
  unfold codecDist
  rw [← h.structural]
  cases hs : Codec.structural p with
  | true =>
    rw [if_pos rfl, if_pos rfl, h.structuralDist hs]
  | false =>
    have hbt : btDist B true p c scale = btDist B true p' c scale := by
      simp only [btDist, h.distribution hs]
    rw [if_neg Bool.false_ne_true, if_neg Bool.false_ne_true, h.landmark hs, hbt]

theorem SameModel.train (h : SameModel B p p')
    (hpos : Codec.structural p = true → c.scPos < p.schemaPos) (b : UInt8) :
    codecTrain p b c = codecTrain p' b c := by
  have hadvance : advance p = advance p' := by
    funext pos
    rw [advance, advance, scRecMask, scRecMask, h.schemaRec]
  have hcopy : copyRec p = copyRec p' := by
    funext prev cur i
    simp only [copyRec, h.schemaRec]
  unfold codecTrain
  rw [← h.structural]
  cases hs : Codec.structural p with
  | true =>
    have hactual : actualByte p c b = actualByte p' c b := by
      simp only [actualByte, h.modes hs _ (hpos hs)]
    rw [hactual, hadvance, hcopy]
  | false => rfl

theorem SameModel.begin (h : SameModel B p p') (c : BcbCodec) :
    bcbCodecBegin B p c = bcbCodecBegin B p' c := by
  unfold bcbCodecBegin
  rw [← h.structural]

theorem SameModel.new (h : SameModel B p p') (alloc : Bool) :
    bcbCodecNew B p alloc = bcbCodecNew B p' alloc := by
  unfold bcbCodecNew
  rw [h.begin, ← h.structural]

theorem SameModel.setSdelta (h : SameModel B p p') (alloc on : Bool) (c : BcbCodec) :
    bcbCodecSetSdelta B p alloc on c = bcbCodecSetSdelta B p' alloc on c := by
  unfold bcbCodecSetSdelta
  rw [← h.structural]
  cases hs : Codec.structural p with
  | true =>
    have hbuild : sdeltaBuildPrecompute p = sdeltaBuildPrecompute p' := by
      unfold sdeltaBuildPrecompute
      rw [← h.schemaPos]
      exact mapM_congr fun pos hpos => by rw [h.rows hs pos (List.mem_range.1 hpos)]
    rw [hbuild]
  | false => simp

theorem SameModel.encXform (h : SameModel B p p') (c : BcbCodec) (b : UInt8) :
    bcbCodecEncXform p c b = bcbCodecEncXform p' c b := by
  unfold bcbCodecEncXform
  rw [← h.structural]
  cases hs : Codec.structural p with
  | true =>
    have hpos := wrapPos_lt (structural_rec_pos hs).2 c.scPos
    simp only [← h.wrapPos, h.modes hs _ hpos]
  | false => rfl

end SameModel

end Bcb.Codec
