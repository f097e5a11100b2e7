import Bcb.Bt.Widths
import Bcb.Codec.Lockstep
import Bcb.Prior.Accepted
import Bcb.Prior.LandmarkIndex
import Bcb.Prior.SchemaImage

namespace Bcb.Codec

open RangeCoder Bt Prior

/-- A row that sums to the scale, and so is used as it stands, has no empty width. -/
def RowOk (row : Outcome (UInt8 → Nat)) : Prop :=
  ∀ w, row = .ok w → widthSum w 256 = rcScale → ∀ b, 0 < w b

/-- The rows of the schema, or those of the landmarks that a lookup can find. -/
structure RowsOk (p : BcbPrior) : Prop where
  schema : structural p = true → ∀ pos < p.schemaPos, RowOk (p.schemaCum pos)
  landmark : structural p = false → ∀ k < p.lmK, k < 2 ^ 31 →
    (∀ j < k, p.lmCtx j ≠ p.lmCtx k) → RowOk (p.lmCum k)

variable {B : Build} {im : Image} {p : BcbPrior} {c c' : BcbCodec} {w : UInt8 → Nat}

theorem widthSum_lt (hw : ∀ b, w b < 2 ^ 16) : widthSum w 256 < 2 ^ 32 := by
  have hle : widthSum w 256 ≤ 256 * 2 ^ 16 := by
    calc widthSum w 256 ≤ ∑ _b ∈ Finset.range 256, 2 ^ 16 :=
          Finset.sum_le_sum fun b _ => (hw (UInt8.ofNat b)).le
      _ = 256 * 2 ^ 16 := by simp
  omega

theorem uniformCum_codable : (uniformCum rcScale).Codable := by
  apply cumOf_codable
  · intro b
    norm_num [rcScale]
  · simp [widthSum, rcScale]

theorem cumOf_row_codable (hw : ∀ b, w b < 2 ^ 16) (hsum : cumOf w 256 = rcScale)
    (hpos : widthSum w 256 = rcScale → ∀ b, 0 < w b) : (cumOf w).Codable := by
  rw [cumOf_eq (widthSum_lt hw)] at hsum
  exact cumOf_codable (hpos hsum) hsum.le

theorem rowCum_codable (hw : ∀ b, w b < 2 ^ 16)
    (hpos : widthSum w 256 = rcScale → ∀ b, 0 < w b) : (rowCum rcScale w).Codable := by
  unfold rowCum
  split_ifs with hsum
  · exact cumOf_row_codable hw hsum hpos
  · exact uniformCum_codable

theorem widthSum_rotate (w : UInt8 → Nat) (sh : UInt8) :
    widthSum (fun b => w (b - sh)) 256 = widthSum w 256 := by
  have hbyte : ∀ b : UInt8, UInt8.ofNat b.toNat = b := fun b => UInt8.ofNat_toNat
  have hnat : ∀ i ∈ Finset.range 256, (UInt8.ofNat i).toNat = i := fun i hi =>
    Nat.mod_eq_of_lt (Finset.mem_range.1 hi)
  apply Finset.sum_bij' (fun i _ => (UInt8.ofNat i - sh).toNat)
    (fun i _ => (UInt8.ofNat i + sh).toNat)
  · intro i _
    exact Finset.mem_range.2 (UInt8.ofNat i - sh).toNat_lt
  · intro i _
    exact Finset.mem_range.2 (UInt8.ofNat i + sh).toNat_lt
  · intro i hi
    rw [hbyte, UInt8.sub_add_cancel]
    exact hnat i hi
  · intro i hi
    rw [hbyte, UInt8.add_sub_cancel]
    exact hnat i hi
  · intro i _
    rw [hbyte]

theorem pos_of_codable (hw : ∀ b, w b < 2 ^ 16) (h : (cumOf w).Codable) (b : UInt8) : 0 < w b := by
  have hb : b.toNat < 256 := b.toNat_lt
  have hlt := widthSum_lt hw
  have hle : widthSum w (b.toNat + 1) ≤ widthSum w 256 := widthSum_mono w hb
  have hle' : widthSum w b.toNat ≤ widthSum w (b.toNat + 1) := widthSum_mono w (Nat.le_succ _)
  have hstrict := h.strict b.toNat hb
  rw [cumOf_eq (by omega), cumOf_eq (by omega), widthSum_succ, UInt8.ofNat_toNat] at hstrict
  omega

theorem wrapPos_of_coherent (hs : structural p = true) (hp : SchemaReadable p)
    (hc : Coherent B p c) : wrapPos p c.scPos = c.scPos := by
  have hpos := hc.pos hs
  rw [← hp.pos] at hpos
  exact if_neg (Nat.not_le_of_lt hpos)

theorem bcbCodecSetSdelta_total (hp : p.schemaRec ≠ 0 → SchemaReadable p) (al on : Bool)
    (c : BcbCodec) : ∃ c', bcbCodecSetSdelta B p al on c = .ok c' := by
  simp only [bcbCodecSetSdelta]
  split_ifs with hbuild
  · have hs : structural p = true := by
      simp only [Bool.and_eq_true] at hbuild
      exact hbuild.1.1.2.1
    have hrec := (structural_rec_pos hs).1
    obtain ⟨t, ht⟩ : ∃ t, sdeltaBuildPrecompute p = .ok t := by
      apply mapM_ok
      intro pos hpos
      obtain ⟨w, hw, -⟩ := (hp hrec.ne').row pos (List.mem_range.1 hpos)
      exact ⟨rowCum rcScale w, by rw [hw]; rfl⟩
    rw [ht]
    exact ⟨_, rfl⟩
  · exact ⟨_, rfl⟩

theorem structuralDist_codable (hs : structural p = true) (hp : SchemaReadable p)
    (hrows : ∀ pos < p.schemaPos, RowOk (p.schemaCum pos)) {cum : Cum}
    (h : structuralDist p (bare c) rcScale = .ok cum) : cum.Codable := by
  have hpos := wrapPos_lt (structural_rec_pos hs).2 c.scPos
  obtain ⟨w, hw, hlt⟩ := hp.row _ hpos
  obtain ⟨m, hm⟩ := hp.mode _ hpos
  have hok := hrows _ hpos w hw
  have hbare : wrapPos p (bare c).scPos = wrapPos p c.scPos := rfl
  simp only [structuralDist, hbare, hw, hm, ok_bind] at h
  split_ifs at h
  · cases h
    exact rowCum_codable hlt hok
  · cases h
    apply rowCum_codable (fun b => hlt (b - _))
    intro hsum b
    rw [widthSum_rotate] at hsum
    exact hok hsum _
  · cases h
    exact rowCum_codable hlt hok

theorem landmarkDist_codable {ctx : Nat → List UInt8} (hlm : LandmarksReadable p.toLandmarks ctx)
    (hrows : ∀ k < p.lmK, k < 2 ^ 31 → (∀ j < k, p.lmCtx j ≠ p.lmCtx k) → RowOk (p.lmCum k))
    {cum : Cum} (h : landmarkDist p c rcScale = .ok (some cum)) : cum.Codable := by
  simp only [landmarkDist, lmLookup_eq hlm.read hlm.lt hlm.index, ok_bind] at h
  split_ifs at h
  · cases hfind : (List.range (min p.lmK (2 ^ 31))).find?
        (fun i => ctx i = c.window.last p.lmN) with
    | none =>
      rw [hfind] at h
      cases h
    | some k =>
      rw [hfind] at h
      obtain ⟨hk, hmem, hmin⟩ := List.find?_range_eq_some.1 hfind
      have hlt : k < min p.lmK (2 ^ 31) := List.mem_range.1 hmem
      have hfirst : ∀ j < k, p.lmCtx j ≠ p.lmCtx k := by
        intro j hj heq
        rw [hlm.read j (by omega), hlm.read k (by omega)] at heq
        have hne := hmin j hj
        rw [Except.ok.inj heq, hk] at hne
        cases hne
      obtain ⟨w, hw, hw16⟩ := hlm.row k (by omega)
      simp only [hw, ok_bind] at h
      split_ifs at h with hsum
      · cases h
        exact cumOf_row_codable hw16 hsum (hrows k (by omega) (by omega) hfirst w hw)
      · cases h
  · cases h

theorem tablesCodable_of_rowsOk (hp : priorParse B im = .ok (some p)) (hrows : RowsOk p) :
    TablesCodable B p := by
  intro c c' cum hc h
  obtain ⟨-, h⟩ := codecDist_ok hc.coherent h
  unfold codecDist at h
  cases hs : structural p with
  | true =>
    rw [hs, if_pos rfl] at h
    obtain ⟨_, hcum, h⟩ := bind_eq_ok.1 h
    cases h
    have hread := priorParse_schema hp (structural_rec_pos hs).1.ne'
    exact structuralDist_codable hs hread (hrows.schema hs) hcum
  | false =>
    rw [hs, if_neg (by decide)] at h
    obtain ⟨o, hlm, h⟩ := bind_eq_ok.1 h
    cases o with
    | some cum =>
      cases h
      exact landmarkDist_codable (priorParse_landmarks hp) (hrows.landmark hs) hlm
    | none =>
      obtain ⟨_, hcum, h⟩ := bind_eq_ok.1 h
      cases h
      exact btV3DistributionR_codable hcum

/-! Conversely, every such row is handed out in some state. -/

theorem scRecMask_eq (hrec : p.schemaRec ≠ 0) (hmask : scRecMask p ≠ 0) :
    scRecMask p = p.schemaRec - 1 ∧ p.schemaRec.isPowerOfTwo := by
  unfold scRecMask at hmask ⊢
  split_ifs at hmask ⊢ with hand
  · exact ⟨rfl, (Nat.and_sub_one_eq_zero_iff_isPowerOfTwo hrec).1 hand⟩
  · exact absurd rfl hmask

theorem advance_eq (hrec : p.schemaRec ≠ 0) {pos : Nat} (hpos : pos < p.schemaRec) :
    advance p pos = if p.schemaRec ≤ pos + 1 then 0 else pos + 1 := by
  unfold advance
  split_ifs with hmask hend hend
  · obtain ⟨hmask', k, hk⟩ := scRecMask_eq hrec hmask
    have hself : pos + 1 = p.schemaRec := by omega
    rw [hmask', hself, hk, Nat.and_two_pow_sub_one_eq_mod, Nat.mod_self]
  · obtain ⟨hmask', k, hk⟩ := scRecMask_eq hrec hmask
    rw [hmask', hk, Nat.and_two_pow_sub_one_eq_mod]
    exact Nat.mod_eq_of_lt (by omega)
  · rfl
  · rfl

theorem reachable_pos (hs : structural p = true) {n : Nat} (hn : n < p.schemaRec) :
    ∃ c, Reachable B p c ∧ c.scPos = n ∧ c.sdelta = false ∧ c.scPrev = fun _ => 0 := by
  have hrec := (structural_rec_pos hs).1
  induction n with
  | zero =>
    refine ⟨bcbCodecNew B p true, .new true, ?_, ?_, ?_⟩
    all_goals simp [bcbCodecNew, bcbCodecBegin, hs]
  | succ n ih =>
    obtain ⟨c, hc, hpos, hsd, hprev⟩ := ih (Nat.lt_of_succ_lt hn)
    have hact : actualByte p c 0 = .ok 0 := by
      rw [actualByte, hsd]
      rfl
    have hadv : advance p c.scPos = n + 1 := by
      rw [hpos, advance_eq hrec.ne' (Nat.lt_of_succ_lt hn), if_neg (by omega)]
    obtain ⟨c', hc'⟩ : ∃ c', codecTrain p 0 c = .ok c' := by
      rw [codecTrain, hs, if_pos rfl, hact]
      exact ⟨_, rfl⟩
    refine ⟨c', hc.train hc', ?_⟩
    rcases codecTrain_ok hc' with ⟨-, actual, -, rfl⟩ | ⟨hs', -⟩
    · simp [hadv, hsd, hprev]
    · rw [hs] at hs'
      cases hs'

theorem rowOk_schema (hcod : TablesCodable B p) (hs : structural p = true)
    (hp : SchemaReadable p) {pos : Nat} (hpos : pos < p.schemaPos) : RowOk (p.schemaCum pos) := by
  intro w hw hsum
  obtain ⟨w', hw', hlt⟩ := hp.row pos hpos
  obtain ⟨m, hm⟩ := hp.mode pos hpos
  obtain rfl : w' = w := Except.ok.inj (hw'.symm.trans hw)
  obtain ⟨c, hc, rfl, hsd, hprev⟩ := reachable_pos (B := B) hs (n := pos) (hp.pos ▸ hpos)
  have hwrap := wrapPos_of_coherent hs hp hc.coherent
  have hcum : cumOf w' 256 = rcScale := by rw [cumOf_eq (widthSum_lt hlt), hsum]
  have hdist : codecDist B true p rcScale c = .ok (cumOf w', c) := by
    have hrot : (fun b : UInt8 => w' (b - 0)) = w' := by
      funext b
      rw [UInt8.sub_zero]
    simp only [codecDist, hs, if_true, structuralDist, hwrap, hsd, Bool.false_eq_true, if_false,
      hw', hm, ok_bind, hprev, hrot, rowCum, hcum]
    split_ifs <;> rfl
  exact pos_of_codable hlt (hcod hc hdist)

theorem reachable_window (hs : structural p = false) (l : List UInt8) (hl : l.length ≤ btMaxDepth) :
    ∃ c, Reachable B p c ∧ c.window.bytes = l := by
  induction l using List.reverseRecOn with
  | nil =>
    refine ⟨bcbCodecNew B p true, .new true, ?_⟩
    simp only [bcbCodecNew, bcbCodecBegin, hs, Bool.false_eq_true, if_false]
    split_ifs <;> rfl
  | append_singleton l b ih =>
    rw [List.length_append, List.length_singleton] at hl
    obtain ⟨c, hc, hwin⟩ := ih (by omega)
    have htrain : codecTrain p b c = .ok { c with window := c.window.push b } := by
      rw [codecTrain, hs, if_neg (by decide)]
      rfl
    refine ⟨_, hc.train htrain, ?_⟩
    simp only [Window.push, hwin, dif_pos (Nat.lt_of_succ_le hl)]

theorem rowOk_landmark {ctx : Nat → List UInt8} (hcod : TablesCodable B p)
    (hs : structural p = false) (hlm : LandmarksReadable p.toLandmarks ctx) {k : Nat}
    (hk : k < p.lmK) (hint : k < 2 ^ 31) (hfirst : ∀ j < k, p.lmCtx j ≠ p.lmCtx k) :
    RowOk (p.lmCum k) := by
  intro w hw hsum
  obtain ⟨w', hw', hlt⟩ := hlm.row k hk
  obtain rfl : w' = w := Except.ok.inj (hw'.symm.trans hw)
  have hlen := hlm.length k
  obtain ⟨c, hc, hwin⟩ := reachable_window (B := B) hs (ctx k)
    (hlen.le.trans (hlm.depth (by omega)))
  have hlast : c.window.last p.lmN = ctx k := by
    rw [Window.last, hwin, hlen, Nat.sub_self, List.drop_zero]
  have hfind : (List.range (min p.lmK (2 ^ 31))).find? (fun i => ctx i = ctx k) = some k := by
    rw [List.find?_range_eq_some]
    refine ⟨decide_eq_true rfl, List.mem_range.2 (by omega), ?_⟩
    intro j hj
    have hne := hfirst j hj
    rw [hlm.read j (by omega), hlm.read k hk] at hne
    simpa using fun heq => hne (congrArg Except.ok heq)
  have hcum : cumOf w' 256 = rcScale := by rw [cumOf_eq (widthSum_lt hlt), hsum]
  have hdist : codecDist B true p rcScale c = .ok (cumOf w', c) := by
    have hcond : p.lmK ≠ 0 ∧ True ∧ p.lmN ≤ c.window.bytes.length :=
      ⟨by omega, trivial, by rw [hwin, hlen]⟩
    simp only [codecDist, hs, Bool.false_eq_true, if_false, landmarkDist, if_pos hcond, hlast,
      lmLookup_eq hlm.read hlm.lt hlm.index, hfind, hw', ok_bind, if_pos hcum]
    rfl
  exact pos_of_codable hlt (hcod hc hdist)

theorem tablesCodable_iff (hp : priorParse B im = .ok (some p)) :
    TablesCodable B p ↔ RowsOk p := by
  refine ⟨fun hcod => ⟨?_, ?_⟩, tablesCodable_of_rowsOk hp⟩
  · intro hs pos hpos
    exact rowOk_schema hcod hs (priorParse_schema hp (structural_rec_pos hs).1.ne') hpos
  · intro hs k hk hint hfirst
    exact rowOk_landmark hcod hs (priorParse_landmarks hp) hk hint hfirst

theorem structural_schemaPrior (mode : UInt8) (row : UInt8 → UInt16) :
    structural (schemaPrior mode row) = true := by
  simp [structural, schemaPrior, priorOf, schemaHeader, schemaMax]

theorem tablesCodable_schemaPrior (mode : UInt8) {row : UInt8 → UInt16} (h : ∀ b, 0 < row b) :
    TablesCodable .plain (schemaPrior mode row) := by
  apply tablesCodable_of_rowsOk (priorParse_schemaImage mode row)
  constructor
  · intro _ pos hpos w hw _ b
    change pos < 1 at hpos
    obtain rfl : pos = 0 := by omega
    rw [schemaPrior_cum] at hw
    rw [← Except.ok.inj hw]
    exact UInt16.lt_iff_toNat_lt.1 (h b)
  · intro hs
    rw [structural_schemaPrior] at hs
    cases hs

end Bcb.Codec
