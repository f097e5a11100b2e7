import Bcb.Api.Payloads
import Bcb.Codec.Sought

/-! Where coding reads a byte that is not hashed, two priors of one id code a message differently. -/

namespace Bcb.Api

open Lib RangeCoder Bt Prior Codec

/-! ## The messages that tell the fillings apart -/

section Filled

variable {B : Build} {h : BcbpHeader} {x : Marks} {im : Image} {slot : Nat → Int} {mask : Nat}
  {c : BcbCodec} {m : List UInt8}

/-- The filled image is accepted, as a prior over the counts. -/
structure Filled (B : Build) (h : BcbpHeader) (im : Image) (x : Marks) (slot : Nat → Int)
    (mask : Nat) : Prop where
  fit : x.Fit h
  lmByte : x.lmByte = 0 ∨ x.lmByte = 1
  accepted : Accepted B h ((x.filling h).image h im)
  landmarks : LandmarksReadable (x.filled h im slot mask).toLandmarks
    (lmBytes ((x.filling h).image h im) h)
  readable : h.schemaRec ≠ 0 → SchemaReadable (x.filled h im slot mask)

variable (ha : LaidApart h) (hacc : Accepted B h im) (hf : Filled B h im x slot mask)
  (hrec : h.schemaRec = 0)

include hrec in
@[simp] theorem structural_filled : structural (x.filled h im slot mask) = false := by
  rw [structural, Bool.and_assoc, Bool.and_eq_false_iff]
  exact .inl (decide_eq_false fun hpos : 0 < h.schemaRec => hpos.ne' hrec)

include ha hacc hf

theorem landmarkDist_far (hc : After c m) (hm : m <+: farKey) :
    landmarkDist (x.filled h im slot mask) c rcScale = .ok none := by
  apply Marks.landmarkDist_none hf.landmarks
  intro hle k hk heq
  have hlt : k < h.lmK := by
    have hmod := Nat.mod_le h.lmK (2 ^ 32)
    rw [lmRead] at hk
    omega
  have hn : h.lmN ≠ 0 := Nat.one_le_iff_ne_zero.1 (hacc.bounds.lm (by omega)).1
  have hfar : ∀ b ∈ farKey, b ≠ 0 ∧ b ≠ 1 := by decide +kernel
  have hlast : (c.window.last h.lmN) ≠ [] := by
    rw [Ne, ← List.length_eq_zero_iff, c.window.last_length hle]
    exact hn
  obtain ⟨b, hb⟩ := List.exists_mem_of_ne_nil _ hlast
  have hmem : b ∈ farKey := hm.subset (hc.window ▸ List.mem_of_mem_drop hb)
  obtain ⟨h0, h1⟩ := hfar b hmem
  rw [← heq, Marks.lmBytes_filled ha hacc hk hn] at hb
  split_ifs at hb
  · rcases List.mem_append.1 hb with hb | hb
    · exact h0 (List.eq_of_mem_replicate hb)
    · rw [List.mem_singleton.1 hb] at h0 h1
      exact hf.lmByte.elim h0 h1
  · exact h0 (List.eq_of_mem_replicate hb)

include hrec

theorem flatBefore_farKey : FlatBefore B (x.filled h im slot mask) farKey := by
  intro c m hm hne hc
  have hlt : m.length < farKey.length :=
    lt_of_le_of_ne hm.length_le fun heq => hne (hm.eq_of_length heq)
  have hflat := Marks.dist_flat (t := slot) (m := mask) (w := c.window) ha hacc hf.fit
    fun n => .inl fun hfar => by
      have hlen := congrArg List.length hfar
      rw [Window.last, List.length_drop, hc.window] at hlen
      omega
  rw [codecDist_count (structural_filled hrec) hc.cache (landmarkDist_far ha hacc hf hc hm), hflat]
  rfl

theorem codecDist_farKey (hc : After c farKey) :
    codecDist B true (x.filled h im slot mask) rcScale c =
    (btV3DistributionR B true (reader (x.filled h im slot mask) c.window) rcScale).map (·, c) :=
  codecDist_count (structural_filled hrec) hc.cache (landmarkDist_far ha hacc hf hc List.prefix_rfl)

omit ha hacc hf hrec in
theorem mem_lastKey {b : UInt8} (hb : b ∈ Marks.lastKey h) : b = 0 ∨ b = 1 := by
  rcases List.mem_append.1 hb with hb | hb
  · exact .inl (List.eq_of_mem_replicate hb)
  · exact .inr (List.mem_singleton.1 hb)

theorem codecDist_zeros (hc : After c m) (hm : m <+: Marks.lastKey h)
    (hlm : landmarkDist (x.filled h im slot mask) c rcScale = .ok none) :
    codecDist B true (x.filled h im slot mask) rcScale c = .ok (flatTable, c) := by
  have hflat := Marks.dist_flat (t := slot) (m := mask) (w := c.window) ha hacc hf.fit
    fun n => .inl fun hfar => by
      have hmem : (0x55 : UInt8) ∈ c.window.last n := by
        rw [hfar]
        decide
      have h01 := mem_lastKey (hm.subset (hc.window ▸ List.mem_of_mem_drop hmem))
      revert h01
      decide
  rw [codecDist_count (structural_filled hrec) hc.cache hlm, hflat]
  rfl

theorem flatBefore_lastKey (hn : h.lmN ≠ 0) :
    FlatBefore B (x.filled h im slot mask) (Marks.lastKey h) := by
  intro c m hm hne hc
  have hlt : m.length < (Marks.lastKey h).length :=
    lt_of_le_of_ne hm.length_le fun heq => hne (hm.eq_of_length heq)
  apply codecDist_zeros ha hacc hf hrec hc hm
  apply Marks.landmarkDist_none hf.landmarks
  intro hle
  rw [Marks.lastKey, List.length_append, List.length_replicate, List.length_singleton] at hlt
  rw [hc.window] at hle
  omega

end Filled

/-! ## Messages over records -/

section Filled

variable {B : Build} {h : BcbpHeader} {x : Marks} {im : Image} {slot : Nat → Int} {mask : Nat}
  (ha : LaidApart h) (hacc : Accepted B h im) (hf : Filled B h im x slot mask)
  (hrec : h.schemaRec ≠ 0)

/-- The table at the end of a record. -/
def lastTable (w : UInt16) : Cum := rowCum rcScale fun b => (lastWidth w b).toNat

/-- The last of the symbols. -/
def lastSymbol (mode : UInt8) : UInt8 := if mode ≠ 0 then 255 else 254

theorem symbol_zero {r k i : Nat} (hr : h.schemaPos = r + 1) (hk : k < r) (hmod : i % (r + 1) = k)
    (hi : (recordMsg r).getD i 0 = 0) : (rowCum rcScale (fun b =>
        ((x.filling h).schemaCum (i % (r + 1)) b).toNat),
      lagSymbol (x.filling h).schemaModes (r + 1) (recordMsg r) i) = (zeroTable, 0) := by
  have hwhole : rowCum rcScale (fun b => (zeroWidths b).toNat) = zeroTable :=
    if_pos (by decide +kernel)
  have hne : ¬ k + 1 = h.schemaPos := by omega
  have hmode : (x.filling h).schemaModes k = 0 := if_neg hne
  have hrow : (x.filling h).schemaCum k = zeroWidths := if_neg hne
  refine Prod.ext ?_ ?_
  · rw [hmod, hrow, hwhole]
  · simp only [lagSymbol, hmod, hmode, ne_eq, not_true, if_false, hi]

theorem symbol_last {r : Nat} (hr : h.schemaPos = r + 1) :
    (rowCum rcScale (fun b => ((x.filling h).schemaCum (r % (r + 1)) b).toNat),
        lagSymbol (x.filling h).schemaModes (r + 1) (recordMsg r) r) = (lastTable x.width, 255) ∧
      (rowCum rcScale (fun b => ((x.filling h).schemaCum ((r + 1 + r) % (r + 1)) b).toNat),
        lagSymbol (x.filling h).schemaModes (r + 1) (recordMsg r) (r + 1 + r)) =
          (lastTable x.width, lastSymbol x.mode) := by
  have hmod : r % (r + 1) = r := Nat.mod_eq_of_lt (Nat.lt_succ_self r)
  have hmod' : (r + 1 + r) % (r + 1) = r := by rw [Nat.add_mod_left, hmod]
  obtain ⟨h255, h254⟩ := recordMsg_last (r := r)
  have hsub : r + 1 + r - (r + 1) = r := by omega
  have hmode : (x.filling h).schemaModes r = x.mode := if_pos hr.symm
  have hrow : (x.filling h).schemaCum r = lastWidth x.width := if_pos hr.symm
  constructor
  · refine Prod.ext ?_ ?_
    · rw [hmod, hrow, lastTable]
    · rw [lagSymbol, hmod, h255, if_neg (show ¬ r + 1 ≤ r by omega)]
      exact ite_self _
  · refine Prod.ext ?_ ?_
    · rw [hmod', hrow, lastTable]
    · simp only [lagSymbol, hmod', hmode, h254, Nat.le_add_right, if_true, hsub, h255, lastSymbol]
      rfl

include ha hacc hf hrec

theorem schema_filled : Schema (x.filled h im slot mask) ((x.filling h).schemaModes)
    fun pos b => ((x.filling h).schemaCum pos b).toNat := by
  have hpos : h.schemaPos = h.schemaRec := (hf.readable hrec).pos
  have hcount : ∀ {pos}, pos < h.schemaRec → pos < if h.schemaRec = 0 then 0 else h.schemaPos := by
    intro pos hlt
    rw [if_neg hrec, hpos]
    exact hlt
  refine ⟨hf.readable hrec, fun pos hlt => ?_, fun pos hlt => ?_⟩
  · exact Filling.image_byte ha (fun _ hs => hacc.region_le hs) (s := .schemaModes) rfl (hcount hlt)
  · exact Filling.image_row ha (fun _ hs => hacc.region_le hs) (s := .schemaCum) rfl rfl (hcount hlt)

omit ha hacc in
@[simp] theorem structural_records : structural (x.filled h im slot mask) = true := by
  have hread := hf.readable hrec
  have hpos : h.schemaPos = h.schemaRec := hread.pos
  have hmax : h.schemaRec ≤ schemaMax := hread.le_max
  simp only [structural, Bool.and_eq_true, decide_eq_true_eq]
  exact ⟨⟨Nat.pos_of_ne_zero hrec, show 0 < h.schemaPos from hpos ▸ Nat.pos_of_ne_zero hrec⟩, hmax⟩

theorem encodePayload_records {r : Nat} (hr : h.schemaPos = r + 1) {e : CecEncoder}
    (hfirst : feed cecEncNew (lastTable x.width, 255) = .ok e)
    (hstay : feed e (zeroTable, 0) = .ok e) :
    (encodePayload B true (x.filled h im slot mask) ⟨false, true, true⟩ (recordMsg r)
      (bcbCodecNew B (x.filled h im slot mask) false)).map (·.1) =
        (payloadOf [(lastTable x.width, 255), (lastTable x.width, lastSymbol x.mode)]).map some := by
  have hs : structural (x.filled h im slot mask) = true := structural_records hf hrec
  have hread := hf.readable hrec
  have hR : (x.filled h im slot mask).schemaRec = r + 1 := hread.pos.symm.trans hr
  obtain ⟨c1, hc1⟩ := bcbCodecSetSdelta_total (B := B) (fun _ => hread) false true
    (bcbCodecBegin B (x.filled h im slot mask) (bcbCodecNew B (x.filled h im slot mask) false))
  obtain ⟨c', -, henc⟩ := (Recorded.start hs (.new false) hc1).encLoop hs
    (schema_filled ha hacc hf hrec) (recordMsg r)
  have hxform : encXform (x.filled h im slot mask) = bcbCodecEncXform (x.filled h im slot mask) := by
    rw [encXform, if_pos hs]
  have hnew : feed cecEncNew (zeroTable, 0) = .ok cecEncNew :=
    feed_zero (by decide) (by decide) (by decide +kernel)
  obtain ⟨hlast, hlast'⟩ := symbol_last (x := x) hr
  have hfold := foldlM_records (r := r) (g := fun i => (rowCum rcScale fun b =>
      ((x.filling h).schemaCum (i % (r + 1)) b).toNat,
      lagSymbol (x.filling h).schemaModes (r + 1) (recordMsg r) i))
    (fun k hk => symbol_zero hr hk (Nat.mod_eq_of_lt (Nat.lt_succ_of_lt hk)) (recordMsg_zero hk).1)
    hlast (fun k hk => symbol_zero hr hk (by
      rw [Nat.add_mod_left, Nat.mod_eq_of_lt (Nat.lt_succ_of_lt hk)]) (recordMsg_zero hk).2)
    hlast' hnew hfirst hstay
  have hrun := henc cecEncNew
  rw [hR, List.nil_append, recordMsg_length, List.length_nil, hfold] at hrun
  have hset : bcbCodecSetSdelta B (x.filled h im slot mask) false
      (structural (x.filled h im slot mask)) (bcbCodecBegin B (x.filled h im slot mask)
        (bcbCodecNew B (x.filled h im slot mask) false)) = .ok c1 := by
    rw [hs]
    exact hc1
  rw [encodePayload, hset, ok_bind, hxform]
  simp only [Bool.not_true, Bool.false_eq_true, if_false, hrun]
  rw [payloadOf, List.foldlM_cons, hfirst, ok_bind, List.foldlM_cons]
  cases feed e (lastTable x.width, lastSymbol x.mode) with
  | error f => rfl
  | ok e1 => rfl

end Filled

/-! ## A pair for each region -/

section Pairs

variable {B : Build} {h : BcbpHeader} {im : Image} {slot slot' : Nat → Int} {mask mask' : Nat}
  {s : Region} (ha : LaidApart h) (hacc : Accepted B h im)
  (hf : Filled B h im (Marks.shown h) slot mask)
  (hf' : Filled B h im (Marks.hidden h s) slot' mask') (hs : reach h s ≠ 0)

include ha hacc hf hf' hs

theorem not_codesAlike_count (hbt : s = .pool ∨ s = .ctxPool ∨ s = .ctxSlot ∨ s = .bloom) :
    ¬ CodesAlike B ((Marks.shown h).filled h im slot mask)
      ((Marks.hidden h s).filled h im slot' mask') := by
  have hfind : Findable h := by
    rcases hbt with rfl | rfl | rfl | rfl
    · by_contra hno
      exact hs (if_neg fun hf => hno hf.1)
    · exact Marks.findable_of_reach rfl hs
    · exact Marks.findable_of_reach rfl hs
    · exact Marks.findable_of_reach rfl hs
  have hrec := hfind.1
  have hlen : farKey.length ≤ btMaxDepth := by decide
  have hflat : (payloadOf (farKey.map (flatTable, ·) ++ [(flatTable, 1)])).map List.length =
      .ok 7 := by
    decide +kernel
  have hpay' := encodePayload_last (b := 1) (structural_filled hrec) hlen
    (flatBefore_farKey ha hacc hf' hrec) fun c hc => by
      rw [codecDist_farKey ha hacc hf' hrec hc,
        Marks.dist_hidden ha hacc hc.window hf'.accepted hs hbt]
      rfl
  by_cases hsteep : ∀ c, After c farKey → btV3DistributionR B true
      (reader ((Marks.shown h).filled h im slot mask) c.window) rcScale = .ok steepTable
  · have hpay := encodePayload_last (b := 1) (structural_filled hrec) hlen
      (flatBefore_farKey ha hacc hf hrec) fun c hc => by
        rw [codecDist_farKey ha hacc hf hrec hc, hsteep c hc]
        rfl
    have hshort : (payloadOf (farKey.map (flatTable, ·) ++ [(steepTable, 1)])).map List.length =
        .ok 6 := by
      decide +kernel
    exact not_codesAlike ((structural_filled hrec).trans (structural_filled hrec).symm) hpay hpay'
      hshort hflat (by decide)
  -- a division by zero is the other way to see the last byte
  · intro h
    obtain ⟨comp, hcomp, -⟩ := map_eq_ok.1 hflat
    rw [hcomp] at hpay'
    obtain ⟨x, hx⟩ := h.encodePayload hpay'
    obtain ⟨c, y, hc, hy⟩ := dist_of_encodePayload (structural_filled hrec) hlen
      (flatBefore_farKey ha hacc hf hrec) hx
    rw [codecDist_farKey ha hacc hf hrec hc] at hy
    obtain ⟨cum, hcum, -⟩ := map_eq_ok.1 hy
    apply hsteep
    intro c' hc'
    have hwindow : c'.window = c.window := Window.eq_of_bytes (hc'.window.trans hc.window.symm)
    rw [hwindow]
    exact (Marks.dist_shown ha hacc hc.window hf.accepted hfind).resolve_right fun hno =>
      hno cum hcum

theorem not_codesAlike_landmark (hlm : s = .lmCtx ∨ s = .lmCum) :
    ¬ CodesAlike B ((Marks.shown h).filled h im slot mask)
      ((Marks.hidden h s).filled h im slot' mask') := by
  have hrec : h.schemaRec = 0 := by
    by_contra hno
    rcases hlm with rfl | rfl
    · exact hs (if_neg hno)
    · exact hs (if_neg hno)
  have hread : lmRead h ≠ 0 := by
    intro h0
    rcases hlm with rfl | rfl
    · exact hs (by rw [reach, h0, Nat.mul_zero, ite_self])
    · exact hs (by rw [reach, h0, Nat.mul_zero, ite_self])
  obtain ⟨hn, hdepth, -, -⟩ := hacc.bounds.lm (by
    rintro h0
    exact hread (by rw [lmRead, h0]; rfl))
  obtain ⟨k, hk⟩ : ∃ k, h.lmN = k + 1 := ⟨h.lmN - 1, by omega⟩
  have hkey : Marks.lastKey h = List.replicate k 0 ++ [1] := by
    rw [Marks.lastKey, hk, Nat.add_sub_cancel]
  have hlen : (Marks.lastKey h).length ≤ btMaxDepth := by
    rw [hkey, List.length_append, List.length_replicate, List.length_singleton, ← hk]
    exact hdepth
  have hcode : ∀ k < 24, (payloadOf ((List.replicate k (0 : UInt8) ++ [1]).map (flatTable, ·) ++
      [(cumOf fun b => (lastWidth 0x3F01 b).toNat, 255)])).map List.length = .ok (k + 2) ∧
      (payloadOf ((List.replicate k (0 : UInt8) ++ [1]).map (flatTable, ·) ++
        [(flatTable, 255)])).map List.length = .ok (k + 3) := by
    decide +kernel
  have hrow : cumOf (fun b => (lastWidth 0x3F01 b).toNat) 256 = rcScale := by decide +kernel
  have hrow' : cumOf (fun b => (lastWidth 0x0001 b).toNat) 256 ≠ rcScale := by decide +kernel
  have hk24 : k < 24 := by
    rw [hk] at hdepth
    exact hdepth
  obtain ⟨hshort, hflat⟩ := hcode k hk24
  rw [← hkey] at hshort hflat
  have hpay := encodePayload_last (b := 255) (structural_filled hrec) hlen
    (flatBefore_lastKey ha hacc hf hrec (by omega)) fun c hc => by
      apply codecDist_landmark (structural_filled hrec)
      rw [Marks.landmarkDist_last ha hacc hf.landmarks hread (by omega) rfl hc.window]
      exact congrArg Except.ok (if_pos hrow)
  have hpay' := encodePayload_last (b := 255) (structural_filled hrec) hlen
    (flatBefore_lastKey ha hacc hf' hrec (by omega)) fun c hc => by
      apply codecDist_zeros ha hacc hf' hrec hc List.prefix_rfl
      rcases hlm with rfl | rfl
      · exact Marks.landmarkDist_without ha hacc hf'.landmarks (by omega) rfl hc.window
      · rw [Marks.landmarkDist_last ha hacc hf'.landmarks hread (by omega) rfl hc.window]
        exact congrArg Except.ok (if_neg hrow')
  exact not_codesAlike ((structural_filled hrec).trans (structural_filled hrec).symm) hpay hpay'
    hshort hflat (by omega)

theorem not_codesAlike_record (hrow : s = .schemaModes ∨ s = .schemaCum) :
    ¬ CodesAlike B ((Marks.shown h).filled h im slot mask)
      ((Marks.hidden h s).filled h im slot' mask') := by
  have hrec : h.schemaRec ≠ 0 := by
    intro h0
    rcases hrow with rfl | rfl
    · exact hs (if_pos h0)
    · exact hs (if_pos h0)
  have hpos : h.schemaPos = h.schemaRec := (hf.readable hrec).pos
  obtain ⟨r, hr⟩ : ∃ r, h.schemaPos = r + 1 := ⟨h.schemaPos - 1, by omega⟩
  have hstr : structural ((Marks.shown h).filled h im slot mask) =
      structural ((Marks.hidden h s).filled h im slot' mask') :=
    (structural_records hf hrec).trans (structural_records hf' hrec).symm
  obtain ⟨e, he, hstay⟩ := exists_feed (x := (lastTable 0x3F01, 255)) (by decide +kernel)
  have hpay := encodePayload_records ha hacc hf hrec hr he hstay
  have hshort : (payloadOf [(lastTable 0x3F01, 255), (lastTable 0x3F01, lastSymbol 1)]).map
      List.length = .ok 1 := by
    decide +kernel
  rcases hrow with rfl | rfl
  · have hpay' := encodePayload_records ha hacc hf' hrec hr he hstay
    have hlong : (payloadOf [(lastTable 0x3F01, 255), (lastTable 0x3F01, lastSymbol 0)]).map
        List.length = .ok 2 := by
      decide +kernel
    exact not_codesAlike hstr hpay hpay' hshort hlong (by decide)
  · obtain ⟨e', he', hstay'⟩ := exists_feed (x := (lastTable 0x0001, 255)) (by decide +kernel)
    have hpay' := encodePayload_records ha hacc hf' hrec hr he' hstay'
    have hlong : (payloadOf [(lastTable 0x0001, 255), (lastTable 0x0001, lastSymbol 1)]).map
        List.length = .ok 3 := by
      decide +kernel
    exact not_codesAlike hstr hpay hpay' hshort hlong (by decide)

end Pairs

/-! ## The bytes that the id must cover -/

section Covered

variable {B : Build} {im : Image} {p : BcbPrior} {x : Marks}

theorem exists_filled (hp : priorParse B im = .ok (some p)) (ha : LaidApart (header im))
    (hx : x.Fit (header im)) (hb : x.lmByte = 0 ∨ x.lmByte = 1) : ∃ slot mask,
    priorParse B ((x.filling (header im)).image (header im) im) =
        .ok (some (x.filled (header im) im slot mask)) ∧
      Filled B (header im) im x slot mask := by
  have hacc := accepted_of_priorParse hp
  obtain ⟨slot, mask, hparse⟩ := priorParse_filling hp ha (hx.tame hacc.nslots_pos)
  have hheader := Filling.image_header (f := x.filling (header im)) ha (priorParse_headerSize_le hp)
  have hacc' := accepted_of_priorParse hparse
  have hlm := priorParse_landmarks hparse
  rw [hheader] at hacc' hlm
  exact ⟨slot, mask, hparse, hx, hb, hacc', hlm, fun hrec => priorParse_schema hparse hrec⟩

theorem lmByte_hidden (h : BcbpHeader) (s : Region) :
    (Marks.hidden h s).lmByte = 0 ∨ (Marks.hidden h s).lmByte = 1 := by
  cases s <;> rw [Marks.hidden] <;> try split_ifs
  all_goals first | exact .inr rfl | exact .inl rfl

theorem hashed_of_pairsAlike (hp : priorParse B im = .ok (some p)) (ha : LaidApart (header im))
    (hpairs : PairsAlike B (header im)) : Hashed (header im) := by
  intro s hs
  by_contra hout
  have hacc := accepted_of_priorParse hp
  have hle := priorParse_headerSize_le hp
  obtain ⟨slot, mask, hparse, hf⟩ := exists_filled hp ha Marks.fit_shown (.inr rfl)
  obtain ⟨slot', mask', hparse', hf'⟩ :=
    exists_filled hp ha (Marks.fit_hidden s) (lmByte_hidden (header im) s)
  have hsame := (Marks.differ hs).sameHashed ha hle (Nat.lt_of_not_le hout)
  have halike := hpairs hparse hparse' (Filling.image_header ha hle) hsame
  cases s with
  | pool => exact not_codesAlike_count ha hacc hf hf' hs (.inl rfl) halike
  | ctxPool => exact not_codesAlike_count ha hacc hf hf' hs (.inr (.inl rfl)) halike
  | ctxSlot => exact not_codesAlike_count ha hacc hf hf' hs (.inr (.inr (.inl rfl))) halike
  | bloom => exact not_codesAlike_count ha hacc hf hf' hs (.inr (.inr (.inr rfl))) halike
  | lmCtx => exact not_codesAlike_landmark ha hacc hf hf' hs (.inl rfl) halike
  | lmCum => exact not_codesAlike_landmark ha hacc hf hf' hs (.inr rfl) halike
  | schemaModes => exact not_codesAlike_record ha hacc hf hf' hs (.inl rfl) halike
  | schemaCum => exact not_codesAlike_record ha hacc hf hf' hs (.inr rfl) halike

theorem laidApart_declaredHeader : LaidApart (declaredHeader 168) := by
  constructor
  · intro s
    cases s <;> decide
  · intro s t
    cases s <;> cases t <;> decide

end Covered

end Bcb.Api
