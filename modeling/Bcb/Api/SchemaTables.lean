import Bcb.Api.Shipped
import Bcb.Codec.LagR
import Bcb.Prior.SchemaCounts

namespace Bcb.Api

open Lib Foremost RangeCoder Bt Prior Codec

/-- The rows are the quantised counts of the symbols that the corpus itself has at their places,
without its first record where the symbols are differences. -/
def SymbolRows (D : Doubles) (corpus : List UInt8) (rec : Nat) (modes : Nat → UInt8)
    (rows : Nat → UInt8 → Nat) : Prop :=
  ∀ pp < rec, lmQuantize D .wrapping
    (fun b => (Histogram.count (fun r => lagSymbol modes rec corpus (r * rec + pp))
      (if modes pp ≠ 0 then 1 else 0) (corpus.length / rec) b : ℚ))
    (corpus.length / rec - if modes pp ≠ 0 then 1 else 0 : Nat) rcScale = .ok (rows pp)

section Symbols

variable {modes : Nat → UInt8} {rec pp r : Nat} {delta : Bool} {corpus : List UInt8}

theorem schemaSymbol_eq (hpp : pp < rec) (hmode : modes pp = if delta then 1 else 0)
    (hr : firstOf delta ≤ r) :
    schemaSymbol delta corpus rec pp r = lagSymbol modes rec corpus (r * rec + pp) := by
  have hmod : (r * rec + pp) % rec = pp := by
    rw [Nat.mul_comm, Nat.mul_add_mod, Nat.mod_eq_of_lt hpp]
  rw [lagSymbol, hmod, hmode]
  cases delta with
  | false => rfl
  | true =>
    obtain ⟨q, rfl⟩ : ∃ q, r = q + 1 := Nat.exists_eq_succ_of_ne_zero (Nat.ne_of_gt hr)
    have hback : (q + 1) * rec + pp - rec = q * rec + pp := by
      rw [Nat.add_mul, one_mul]
      omega
    have hle : rec ≤ (q + 1) * rec + pp := by
      rw [Nat.add_mul, one_mul]
      omega
    rw [schemaSymbol, if_pos rfl, if_pos rfl, if_pos (by decide), if_pos hle, hback,
      Nat.add_sub_cancel]

theorem firstOf_mode (hmode : modes pp = if delta then 1 else 0) :
    (if modes pp ≠ 0 then 1 else 0) = firstOf delta := by
  rw [hmode]
  cases delta <;> rfl

theorem symbolRows_of_built {D : Doubles} {rec : Nat} {hrec : 1 ≤ rec ∧ rec ≤ schemaMax}
    {sc : ScTables} (hnrec : corpus.length / rec ≤ 2 ^ 52)
    (h : buildSchema D corpus rec hrec = .ok sc) :
    SymbolRows D corpus rec sc.scModes fun pp b => (sc.scCum pp b).toNat := by
  obtain ⟨-, hall⟩ := buildSchema_counts hnrec h
  intro pp hpp
  obtain ⟨delta, hmode, -, hcounts⟩ := hall pp hpp
  rw [firstOf_mode hmode,
    ← Histogram.count_congr fun r hr _ => schemaSymbol_eq hpp hmode hr]
  exact hcounts

end Symbols

/-- A prior with a schema, whatever model it was saved with, tells its encoders to code each byte
as its symbol, with the counts that the symbols at this place have in the corpus. -/
theorem trained_schema {B : Build} {D : Doubles} {g : Globals} {m : Memory}
    {qsort : Sorting CtxRef.before} {io : Io} {corpus : List UInt8} {rec : Int}
    {file : List UInt8} {proc : Prior.Process} {p : BcbPrior}
    (hrec : 1 ≤ rec.toNat ∧ rec.toNat ≤ schemaMax) (hfew : 2 ≤ corpus.length / rec.toNat)
    (hmany : corpus.length / rec.toNat ≤ 2 ^ 52)
    (hstep : (Prior.Call.mk (.withSchema corpus rec) g m qsort io).step B true D .initial =
      .ok (some ⟨file, true⟩, proc)) (hsize : file.length < 2 ^ 63)
    (hload : priorParse B (.ofList file) = .ok (some p)) :
    ∃ modes rows, structural p = true ∧ p.schemaRec = rec.toNat ∧
      SymbolRows D corpus rec.toNat modes rows ∧
      ∀ {c : BcbCodec} (al : Bool) (msg : List UInt8), Reachable B p c →
        ∃ c1 c', bcbCodecSetSdelta B p al true (bcbCodecBegin B p c) = .ok c1 ∧
          ∀ e, cecEncLoop (bcbCodecCecBt B true p) (bcbCodecEncXform p) msg e c1 =
            (((List.range msg.length).map fun i => (cumOf (rows (i % rec.toNat)),
              lagSymbol modes rec.toNat msg i)).foldlM feed e).map (·, c') := by
  obtain ⟨plan, hplan, hsaved⟩ := step_saved hstep hsize
  obtain ⟨hlm, hsc⟩ := plan_full hplan
  have husable := rowsUsable_of_saved hlm hsc hsaved hload
  have hplan := entry_plan hplan
  rw [Entry.plan, dif_pos hrec, if_neg (by omega)] at hplan
  obtain ⟨t, hbuild, rfl⟩ := map_eq_ok.1 hplan
  have hscRec : (Plan.schema t).own.scRec = rec.toNat := (buildSchema_counts hmany hbuild).1
  have hschema : p.schemaRec = rec.toNat := by
    obtain ⟨-, -, slot, mask, -, rfl⟩ := priorParse_some hload
    exact (congrArg BcbpHeader.schemaRec hsaved.header).trans hscRec
  have hread : SchemaReadable p := priorParse_schema hload (by omega)
  have hpos : p.schemaPos = rec.toNat := hread.pos.trans hschema
  have hs : structural p = true := by
    simp only [structural, hschema, hpos, Bool.and_eq_true, decide_eq_true_eq]
    omega
  have htables : Schema p t.scModes fun pp b => (t.scCum pp b).toNat := by
    obtain ⟨-, -, slot, mask, -, rfl⟩ := priorParse_some hload
    exact ⟨hread, fun pos hpos => hsaved.schemaModes ((hpos.trans_eq hschema).trans_eq hscRec.symm),
      fun pos hpos => hsaved.schemaCum ((hpos.trans_eq hschema).trans_eq hscRec.symm)⟩
  refine ⟨t.scModes, fun pp b => (t.scCum pp b).toNat, hs, hschema, symbolRows_of_built hmany hbuild,
    fun {c} al msg hc => ?_⟩
  obtain ⟨c1, hset⟩ :=
    bcbCodecSetSdelta_total (B := B) (fun _ => hread) al true (bcbCodecBegin B p c)
  obtain ⟨c', -, henc⟩ := (Recorded.start hs hc hset).encLoop hs htables msg
  refine ⟨c1, c', hset, fun e => ?_⟩
  rw [henc e, List.nil_append, List.length_nil, ← List.range_eq_range', hschema]
  congr 2
  apply List.map_congr_left
  intro i _
  have hlt : i % rec.toNat < rec.toNat := Nat.mod_lt _ (by omega)
  obtain ⟨w, hw, -, hsum⟩ := husable.sc (i % rec.toNat) (hlt.trans_eq hpos.symm)
  obtain rfl := Except.ok.inj ((htables.row _ (hlt.trans_eq hschema.symm)).symm.trans hw)
  rw [rowCum, if_pos hsum]

theorem trained_schema_aba : ∃ g file proc p modes rows c1 c',
    btV3TrainAll .plain (fun _ _ => .succeeds) [97, 98, 97]
      (btV3Init .plain (fun _ => blankBt) fun _ => blankCtx) = .ok g ∧
    (Prior.Call.mk (.withSchema [1, 9, 2, 9] 2) g ⟨⟨fun _ _ => 0, fun _ _ => 0⟩, fun _ => 0⟩
      (.stable _) ⟨true, fun _ n => n, true⟩).step .plain true .exact .initial =
        .ok (some ⟨file, true⟩, proc) ∧
    priorParse .plain (.ofList file) = .ok (some p) ∧ structural p = true ∧ p.schemaRec = 2 ∧
    SymbolRows .exact [1, 9, 2, 9] 2 modes rows ∧
    bcbCodecSetSdelta .plain p true true
      (bcbCodecBegin .plain p (bcbCodecNew .plain p true)) = .ok c1 ∧
    ∀ e, cecEncLoop (bcbCodecCecBt .plain true p) (bcbCodecEncXform p) [5, 7, 6] e c1 =
      (((List.range 3).map fun i => (cumOf (rows (i % 2)), lagSymbol modes 2 [5, 7, 6] i)).foldlM
        feed e).map (·, c') := by
  obtain ⟨g, hrun, hbt, hctx, hslots⟩ := aba_sizes
  have hrec : 1 ≤ (2 : Int).toNat ∧ (2 : Int).toNat ≤ schemaMax := by decide
  have hlen : [1, 9, 2, 9].length < 2 ^ 64 := by decide
  have hbuilt : ∃ sc, buildSchema .exact [1, 9, 2, 9] (2 : Int).toNat hrec = .ok sc :=
    buildSchema_exact hrec hlen
  obtain ⟨sc, hbuild⟩ := hbuilt
  have hplan : Entry.plan .plain true .exact (.stable _) g (.withSchema [1, 9, 2, 9] 2) =
      .ok (.schema sc) := by
    rw [Entry.plan, dif_pos hrec, if_neg (by decide)]
    exact congrArg (Plan.schema <$> ·) hbuild
  obtain ⟨file, proc, hstep, hsize⟩ := reported (by omega) (by omega) (by omega) hplan rfl
  obtain ⟨g1, hrun1, hg, -⟩ := trainAll_counted (B := .plain) (fun _ => blankBt)
    (fun _ => blankCtx) (s := [97, 98, 97]) (.inl rfl) (by decide)
  obtain rfl := Except.ok.inj (hrun.symm.trans hrun1)
  obtain ⟨-, p, -, hload, -⟩ := trained_loads hrun hg hstep hsize
  obtain ⟨modes, rows, hs, hschema, hrows, hall⟩ := trained_schema hrec
    (show 2 ≤ [1, 9, 2, 9].length / (2 : Int).toNat by decide) (by decide) hstep hsize hload
  obtain ⟨c1, c', hset, henc⟩ := hall true [5, 7, 6] (.new true)
  exact ⟨g, file, proc, p, modes, rows, c1, c', hrun, hstep, hload, hs, hschema, hrows, hset, henc⟩

end Bcb.Api
