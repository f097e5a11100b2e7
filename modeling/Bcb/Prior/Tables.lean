import Bcb.Lib.Foremost
import Bcb.Prior.Quantize
import Bcb.Bt.Ample
import Bcb.Prior.Accepted
import Bcb.Prior.SaveLoad

namespace Bcb.Prior

open Lib RangeCoder Bt Foremost

/-- `LM_BACKOFF_W`. -/
def lmBackoffW : ℚ := 64

def sumDoubles (D : Doubles) (P : UInt8 → ℚ) : ℚ :=
  (List.range 256).foldl (fun sum b => D.add sum (P (UInt8.ofNat b))) 0

/-! ## Landmarks -/

/-- The tables of landmarks: `k` contexts of `n` bytes with a row each. -/
structure LmTables where
  lmN : Nat
  lmK : Nat
  lmCtx : Nat → Nat → UInt8
  lmCum : Nat → UInt8 → UInt16
  lmN_mem : 1 ≤ lmN ∧ lmN ≤ btMaxDepth
  lmK_lt : lmK < 2 ^ 32

/-- `bt_v3_ctx_at`, `none` for -1: the context and its total. -/
def btV3CtxAt (g : Globals) (i : Nat) : Outcome (Option CtxEntry) :=
  if g.ctx.used ≤ i then pure none else some <$> g.ctx.read i

/-- `memcpy(ctx_out, cc->ctx, cc->ctx_len)`. -/
def ctxOut (cc : CtxEntry) : Outcome (List UInt8) :=
  if cc.ctxLen.toNat ≤ btMaxDepth then pure ((List.ofFn cc.ctx).take cc.ctxLen.toNat)
  else throw .oob

/-- `freq256`. -/
def freq256 (B : Build) (g : Globals) (cc : CtxEntry) : Outcome (UInt8 → UInt32) :=
  actFreq <$> nextBytes (g.reader B g.window) cc

structure CtxRef where
  idx : Nat
  total : UInt32

/-- `cmp_ctxref`, as an order. -/
abbrev CtxRef.before (a b : CtxRef) : Prop := b.total ≤ a.total

instance : Std.Total CtxRef.before where
  total a b := (Nat.le_total b.total.toNat a.total.toNat).imp UInt32.le_iff_toNat_le.2
    UInt32.le_iff_toNat_le.2

instance : IsTrans CtxRef CtxRef.before where
  trans _ _ _ h h' := UInt32.le_iff_toNat_le.2
    ((UInt32.le_iff_toNat_le.1 h').trans (UInt32.le_iff_toNat_le.1 h))

/-- `refs`, for one context of the pool. -/
def ctxRef (g : Globals) (n i : Nat) : Outcome (Option CtxRef) := do
  match ← btV3CtxAt g i with
  | none => return none
  | some cc =>
    let _ ← ctxOut cc
    return if cc.ctxLen.toNat = n ∧ 0 < cc.totalFreq then some ⟨i, cc.totalFreq⟩ else none

/-- A row of counts with the distribution of the model behind them. -/
def landmarkRow (D : Doubles) (U : Shorts) (freq : UInt8 → UInt32) (total : UInt32) (cum : Cum) :
    Outcome (UInt8 → Nat) :=
  let tot := D.add total.toNat lmBackoffW
  let P b :=
    let pbt := D.div (sub32 (cum (b.toNat + 1)) (cum b.toNat)) rcScale
    D.add (D.div (freq b).toNat tot) (D.div (D.mul lmBackoffW pbt) tot)
  lmQuantize D U P (sumDoubles D P) rcScale

/-- One turn of the loop over `r`. -/
def landmark (B : Build) (luts : Bool) (D : Doubles) (g : Globals) (n : Nat) (ref : CtxRef) :
    Outcome (List UInt8 × (UInt8 → Nat)) := do
  match ← btV3CtxAt g ref.idx with
  | none => throw .oob
  | some cc =>
    let ctx ← ctxOut cc
    let freq ← freq256 B g cc
    let window : Window := ⟨ctx.take (min n btMaxDepth), by
      rw [List.length_take]
      omega⟩
    let cum ← btV3DistributionR B luts (g.reader B window) rcScale
    return (ctx, ← landmarkRow D .wrapping freq cc.totalFreq cum)

/-- The tables of `bcb_prior_save_with_landmarks`, for an `n` that it takes. -/
def buildLandmarks (B : Build) (luts : Bool) (D : Doubles) (qsort : Sorting CtxRef.before)
    (g : Globals) (n : Nat) (hn : 1 ≤ n ∧ n ≤ btMaxDepth) (k : UInt32) : Outcome LmTables := do
  let refs ← (List.range g.ctx.used).mapM (ctxRef g n)
  let refs := qsort.sort (refs.filterMap id)
  let rows ← (refs.take k.toNat).mapM (landmark B luts D g n)
  return {
    lmN := n
    lmK := min k.toNat refs.length
    lmCtx := fun r i => ((rows.map Prod.fst).getD r []).getD i 0
    lmCum := fun r b => UInt16.ofNat ((rows.map Prod.snd).getD r (fun _ => 0) b)
    lmN_mem := hn
    lmK_lt := (Nat.min_le_left _ _).trans_lt k.toNat_lt }

/-! ## Schema -/

/-- The tables of a schema: a mode and a row for each byte of a record. -/
structure ScTables where
  scRec : Nat
  scModes : Nat → UInt8
  scCum : Nat → UInt8 → UInt16
  scRec_mem : 1 ≤ scRec ∧ scRec ≤ schemaMax

/-- `bf[pp]` and `df[pp]`. -/
structure Freqs where
  bf : UInt8 → ℚ
  df : UInt8 → ℚ

/-- `corpus[i]`. -/
def corpusAt (corpus : List UInt8) (i : Nat) : Outcome UInt8 :=
  match corpus[i]? with
  | some b => pure b
  | none => throw .oob

/-- `b - corpus[(r-1)*rec + pp]`. -/
def deltaAt (corpus : List UInt8) (rec pp r : Nat) (b : UInt8) : Outcome UInt8 := do
  let prev ← corpusAt corpus ((r - 1) * rec + pp)
  return b - prev

/-- One turn of the loops that count. -/
def countRecord (D : Doubles) (corpus : List UInt8) (rec pp : Nat) (f : Freqs) (r : Nat) :
    Outcome Freqs := do
  let b ← corpusAt corpus (r * rec + pp)
  let bf := Function.update f.bf b (D.add (f.bf b) 1)
  if 0 < r then
    let d ← deltaAt corpus rec pp r b
    return ⟨bf, Function.update f.df d (D.add (f.df d) 1)⟩
  else return ⟨bf, f.df⟩

def countRecords (D : Doubles) (corpus : List UInt8) (rec pp lo hi : Nat) (f : Freqs) :
    Outcome Freqs :=
  (List.range' lo (hi - lo)).foldlM (countRecord D corpus rec pp) f

/-- `while (x < 1.0)`.  A positive `double` is above `2^-1075`. -/
def scaleUp (D : Doubles) : Nat → ℚ → Int → Outcome (ℚ × Int)
  | 0, _, _ => throw .diverge
  | n + 1, x, e => if x < 1 then scaleUp D n (D.mul x 2) (e - 1) else pure (x, e)

/-- `while (x >= 2.0)`.  A `double` is below `2^1024`. -/
def scaleDown (D : Doubles) : Nat → ℚ → Int → Outcome (ℚ × Int)
  | 0, _, _ => throw .diverge
  | n + 1, x, e => if 2 ≤ x then scaleDown D n (D.mul x (1 / 2)) (e + 1) else pure (x, e)

/-- One turn of the loop over the 32 bits of the fraction, on `x`, `frac` and `w`. -/
def fracBit (D : Doubles) (s : ℚ × ℚ × ℚ) : ℚ × ℚ × ℚ :=
  let x := D.mul s.1 s.1
  let w := s.2.2
  if 2 ≤ x then (D.mul x (1 / 2), D.add s.2.1 w, D.mul w (1 / 2))
  else (x, s.2.1, D.mul w (1 / 2))

def bcbLog2Nolibm (D : Doubles) (x : ℚ) : Outcome ℚ := do
  if x ≤ 0 then return -1000
  let (x, e) ← scaleUp D 1100 x 0
  let (x, e) ← scaleDown D 1100 x e
  let s := (fracBit D)^[32] (x, 0, 1 / 2)
  return D.add e s.2.1

/-- `vb` and `vd`. -/
structure Cost where
  vb : ℚ
  vd : ℚ

/-- `bcb_log2_nolibm((f[b] + LM_BACKOFF_W/256) / (tot + LM_BACKOFF_W))`. -/
def logProb (D : Doubles) (f : UInt8 → ℚ) (b : UInt8) : Outcome ℚ :=
  bcbLog2Nolibm D (D.div (D.add (f b) (D.div lmBackoffW 256))
    (D.add (sumDoubles D f) lmBackoffW))

def costRecord (D : Doubles) (corpus : List UInt8) (rec pp : Nat) (f : Freqs) (c : Cost) (r : Nat) :
    Outcome Cost := do
  let b ← corpusAt corpus (r * rec + pp)
  let lb ← logProb D f.bf b
  let d ← deltaAt corpus rec pp r b
  let ld ← logProb D f.df d
  return ⟨D.add c.vb (-lb), D.add c.vd (-ld)⟩

/-- `use_delta`: whether the deltas are cheaper on the records held out. -/
def useDelta (D : Doubles) (corpus : List UInt8) (rec pp nfit nrec : Nat) (f : Freqs) :
    Outcome Bool := do
  let vstart := if nfit < nrec then nfit else 1
  let c ← (List.range' vstart (nrec - vstart)).foldlM (costRecord D corpus rec pp f) ⟨0, 0⟩
  return 0 < nrec - vstart && c.vd < c.vb

/-- A row of counts. -/
def schemaRow (D : Doubles) (U : Shorts) (src : UInt8 → ℚ) : Outcome (UInt8 → Nat) :=
  lmQuantize D U src (sumDoubles D src) rcScale

/-- The mode and the row of one byte of the record. -/
def schemaPos (D : Doubles) (corpus : List UInt8) (rec nfit nrec pp : Nat) :
    Outcome (Bool × (UInt8 → Nat)) := do
  let f ← countRecords D corpus rec pp 0 nfit ⟨fun _ => 0, fun _ => 0⟩
  let delta ← useDelta D corpus rec pp nfit nrec f
  let f ← countRecords D corpus rec pp nfit nrec f
  let w ← schemaRow D .wrapping (if delta then f.df else f.bf)
  return (delta, w)

/-- The tables of `bcb_prior_save_with_schema`, for a `rec` that it takes. -/
def buildSchema (D : Doubles) (corpus : List UInt8) (rec : Nat)
    (hrec : 1 ≤ rec ∧ rec ≤ schemaMax) : Outcome ScTables := do
  let nrec := corpus.length / rec
  let nfit := if 5 ≤ nrec then nrec * 4 / 5 else nrec
  let rows ← (List.range rec).mapM (schemaPos D corpus rec nfit nrec)
  return {
    scRec := rec
    scModes := fun pp => if (rows.map Prod.fst).getD pp false then 1 else 0
    scCum := fun pp b => UInt16.ofNat ((rows.map Prod.snd).getD pp (fun _ => 0) b)
    scRec_mem := hrec }

/-- What is registered for a save. -/
def registered (lm : Option LmTables) (sc : Option ScTables) : Registered where
  lmN := lm.elim 0 LmTables.lmN
  lmK := lm.elim 0 LmTables.lmK
  lmCtx := lm.elim (fun _ _ => 0) LmTables.lmCtx
  lmCum := lm.elim (fun _ _ => 0) LmTables.lmCum
  scRec := sc.elim 0 ScTables.scRec
  scPos := sc.elim 0 ScTables.scRec
  scModes := sc.elim (fun _ => 0) ScTables.scModes
  scCum := sc.elim (fun _ _ => 0) ScTables.scCum
  lmN_mem h := by
    cases lm with
    | none => exact absurd rfl h
    | some t => exact t.lmN_mem
  lmK_lt := by
    cases lm with
    | none => exact Nat.two_pow_pos 32
    | some t => exact t.lmK_lt
  scPos_eq := rfl
  scRec_le := by
    cases sc with
    | none => exact Nat.zero_le _
    | some t => exact t.scRec_mem.2

variable {B : Build} {luts : Bool} {m : Padding} {D : Doubles} {qsort : Sorting CtxRef.before}
  {g : Globals} {lm : LmTables} {sc : ScTables} {n : Nat} {k : UInt32}
  {corpus : List UInt8} {P : UInt8 → ℚ}

/-! ## Rows -/

theorem sumDoubles_foldl (hP : ∀ b, 0 ≤ P b ∧ P b ∈ D.nums) (l : List Nat) {x : ℚ} (hx : 0 ≤ x)
    (hmem : x ∈ D.nums) : x ≤ l.foldl (fun sum b => D.add sum (P (UInt8.ofNat b))) x ∧
      ∀ b ∈ l, P (UInt8.ofNat b) ≤ l.foldl (fun sum b => D.add sum (P (UInt8.ofNat b))) x := by
  induction l generalizing x with
  | nil => exact ⟨le_rfl, fun b hb => by cases hb⟩
  | cons b l ih =>
    obtain ⟨hb0, hb⟩ := hP (UInt8.ofNat b)
    obtain ⟨hle, hall⟩ := ih (Doubles.nonneg_add hx hb0) (D.add_rounds x _).mem
    refine ⟨(Doubles.le_add_left hmem hb0).trans hle, fun b' hb' => ?_⟩
    rcases List.mem_cons.1 hb' with rfl | hb'
    · exact (Doubles.le_add_right hb hx).trans hle
    · exact hall b' hb'

theorem le_sumDoubles (hP : ∀ b, 0 ≤ P b ∧ P b ∈ D.nums) (b : UInt8) : P b ≤ sumDoubles D P := by
  have hle := (sumDoubles_foldl hP (List.range 256) le_rfl D.zero_mem).2 b.toNat
    (List.mem_range.2 b.toNat_lt)
  rwa [UInt8.ofNat_toNat] at hle

theorem lmQuantize_sum (hP : ∀ b, 0 ≤ P b ∧ P b ∈ D.nums) :
    ∃ w, (∀ U, lmQuantize D U P (sumDoubles D P) rcScale = .ok w) ∧ FullRow rcScale w :=
  Weights.lmQuantize_ok D ⟨fun b => (hP b).1, .inr (le_sumDoubles hP)⟩ (by decide) (by decide)

theorem landmarkRow_ok (D : Doubles) (freq : UInt8 → UInt32) (total : UInt32) (cum : Cum) :
    ∃ w, (∀ U, landmarkRow D U freq total cum = .ok w) ∧ FullRow rcScale w := by
  apply lmQuantize_sum
  intro b
  have hback : (0 : ℚ) ≤ lmBackoffW := by norm_num [lmBackoffW]
  have htot : 0 ≤ D.add total.toNat lmBackoffW := Doubles.nonneg_add (Nat.cast_nonneg _) hback
  refine ⟨Doubles.nonneg_add (Doubles.nonneg_div (Nat.cast_nonneg _) htot) ?_,
    (D.add_rounds _ _).mem⟩
  exact Doubles.nonneg_div (Doubles.nonneg_mul hback
    (Doubles.nonneg_div (Nat.cast_nonneg _) (Nat.cast_nonneg _))) htot

/-- Counts as they are summed up in `double`. -/
def Counted (D : Doubles) (f : UInt8 → ℚ) : Prop := ∀ b, 0 ≤ f b ∧ f b ∈ D.nums

theorem Counted.add {f : UInt8 → ℚ} (h : Counted D f) (b : UInt8) :
    Counted D (Function.update f b (D.add (f b) 1)) := by
  intro b'
  rw [Function.update_apply]
  split_ifs
  · exact ⟨Doubles.nonneg_add (h b).1 zero_le_one, (D.add_rounds _ _).mem⟩
  · exact h b'

structure Freqs.Counted (D : Doubles) (f : Freqs) : Prop where
  bf : Prior.Counted D f.bf
  df : Prior.Counted D f.df

theorem countRecord_counted {rec pp r : Nat} {f f' : Freqs} (h : f.Counted D)
    (hrun : countRecord D corpus rec pp f r = .ok f') : f'.Counted D := by
  obtain ⟨b, -, hrun⟩ := bind_eq_ok.1 hrun
  dsimp only at hrun
  split_ifs at hrun
  · obtain ⟨d, -, hrun⟩ := bind_eq_ok.1 hrun
    obtain rfl := Except.ok.inj hrun
    exact ⟨h.bf.add b, h.df.add d⟩
  · obtain rfl := Except.ok.inj hrun
    exact ⟨h.bf.add b, h.df⟩

theorem countRecords_counted {rec pp lo hi : Nat} {f f' : Freqs} (h : f.Counted D)
    (hrun : countRecords D corpus rec pp lo hi f = .ok f') : f'.Counted D :=
  foldlM_inv (P := fun _ f => f.Counted D) hrun h fun _ _ _ _ _ hf hstep =>
    countRecord_counted hf hstep

theorem schemaPos_row {rec nfit nrec pp : Nat} {x : Bool × (UInt8 → Nat)}
    (h : schemaPos D corpus rec nfit nrec pp = .ok x) : FullRow rcScale x.2 := by
  have hzero : (Freqs.mk (fun _ => 0) fun _ => 0).Counted D :=
    ⟨fun _ => ⟨le_rfl, D.zero_mem⟩, fun _ => ⟨le_rfl, D.zero_mem⟩⟩
  obtain ⟨f, hf, h⟩ := bind_eq_ok.1 h
  obtain ⟨delta, -, h⟩ := bind_eq_ok.1 h
  obtain ⟨f', hf', h⟩ := bind_eq_ok.1 h
  obtain ⟨w, hw, h⟩ := bind_eq_ok.1 h
  obtain rfl := Except.ok.inj h
  have hcounted := countRecords_counted (countRecords_counted hzero hf) hf'
  have hsrc : Counted D (if delta then f'.df else f'.bf) := by
    split_ifs
    · exact hcounted.df
    · exact hcounted.bf
  obtain ⟨w', hrun, hrow⟩ := lmQuantize_sum hsrc
  obtain rfl := Except.ok.inj ((hrun .wrapping).symm.trans hw)
  exact hrow

theorem landmark_row {ref : CtxRef} {x : List UInt8 × (UInt8 → Nat)}
    (h : landmark B luts D g n ref = .ok x) : FullRow rcScale x.2 := by
  obtain ⟨cc, -, h⟩ := bind_eq_ok.1 h
  cases cc with
  | none => cases h
  | some cc =>
    obtain ⟨ctx, -, h⟩ := bind_eq_ok.1 h
    obtain ⟨freq, -, h⟩ := bind_eq_ok.1 h
    obtain ⟨cum, -, h⟩ := bind_eq_ok.1 h
    obtain ⟨w, hw, h⟩ := bind_eq_ok.1 h
    obtain rfl := Except.ok.inj h
    obtain ⟨w', hrun, hrow⟩ := landmarkRow_ok D freq cc.totalFreq cum
    obtain rfl := Except.ok.inj ((hrun .wrapping).symm.trans hw)
    exact hrow

/-! ## Tables -/

/-- Every stored row is full. -/
def FullRows (n : Nat) (cum : Nat → UInt8 → UInt16) : Prop :=
  ∀ i < n, FullRow rcScale fun b => (cum i b).toNat

theorem FullRow.stored {w : UInt8 → Nat} (h : FullRow rcScale w) (b : UInt8) :
    (UInt16.ofNat (w b)).toNat = w b := by
  have hle := (le_widthSum w b).trans_eq h.sum
  rw [rcScale] at hle
  exact Nat.mod_eq_of_lt (by omega)

theorem FullRow.toUInt16 {w : UInt8 → Nat} (h : FullRow rcScale w) :
    FullRow rcScale fun b => (UInt16.ofNat (w b)).toNat := by
  rw [funext h.stored]
  exact h

theorem fullRows_getD {α : Type} {rows : List (α × (UInt8 → Nat))}
    (h : ∀ x ∈ rows, FullRow rcScale x.2) :
    FullRows rows.length fun i b => UInt16.ofNat ((rows.map Prod.snd).getD i (fun _ => 0) b) := by
  intro i hi
  have hget : (rows.map Prod.snd).getD i (fun _ => 0) = rows[i].2 := by
    rw [List.getD_eq_getElem?_getD, List.getElem?_map, List.getElem?_eq_getElem hi]
    rfl
  dsimp only
  rw [hget]
  exact (h _ (List.getElem_mem hi)).toUInt16

theorem buildLandmarks_full {hn : 1 ≤ n ∧ n ≤ btMaxDepth}
    (h : buildLandmarks B luts D qsort g n hn k = .ok lm) : FullRows lm.lmK lm.lmCum := by
  obtain ⟨refs, -, h⟩ := bind_eq_ok.1 h
  obtain ⟨rows, hrows, h⟩ := bind_eq_ok.1 h
  obtain rfl := Except.ok.inj h
  have hlen := mapM_length hrows
  rw [List.length_take] at hlen
  dsimp only
  rw [← hlen]
  exact fullRows_getD (mapM_forall hrows fun _ _ _ => landmark_row)

/-- `refs` has an entry. -/
def hasLandmark (g : Globals) (n : Nat) : Prop :=
  ∃ i < g.ctx.used, (g.ctx.pool i).ctxLen.toNat = n ∧ 0 < (g.ctx.pool i).totalFreq

instance : Decidable (hasLandmark g n) := by
  unfold hasLandmark
  infer_instance

theorem ctxRef_isSome {i : Nat} {ref : Option CtxRef} (hi : i < g.ctx.used)
    (h : ctxRef g n i = .ok ref) :
    ref.isSome ↔ (g.ctx.pool i).ctxLen.toNat = n ∧ 0 < (g.ctx.pool i).totalFreq := by
  obtain ⟨cc, hcc, h⟩ := bind_eq_ok.1 h
  rw [btV3CtxAt, if_neg (Nat.not_le.2 hi)] at hcc
  obtain ⟨e, he, rfl⟩ := map_eq_ok.1 hcc
  obtain ⟨ctx, -, h⟩ := bind_eq_ok.1 h
  obtain rfl := Except.ok.inj h
  obtain rfl : g.ctx.pool i = e := by
    unfold Table.read at he
    split_ifs at he
    exact Except.ok.inj he
  split_ifs with hc
  · exact iff_of_true rfl hc
  · exact iff_of_false Bool.false_ne_true hc

theorem buildLandmarks_any {hn : 1 ≤ n ∧ n ≤ btMaxDepth} (hk : k ≠ 0)
    (h : buildLandmarks B luts D qsort g n hn k = .ok lm) : lm.lmK ≠ 0 ↔ hasLandmark g n := by
  obtain ⟨refs, hrefs, h⟩ := bind_eq_ok.1 h
  obtain ⟨rows, -, h⟩ := bind_eq_ok.1 h
  obtain rfl := Except.ok.inj h
  have hk0 : k.toNat ≠ 0 := fun h0 => hk (UInt32.toNat_inj.1 h0)
  have hmin : min k.toNat (qsort.sort (refs.filterMap id)).length ≠ 0 ↔
      refs.filterMap id ≠ [] := by
    rw [qsort.length_sort, ← List.length_pos_iff_ne_nil]
    omega
  refine hmin.trans ⟨fun hne => ?_, fun ⟨i, hi, hc⟩ => ?_⟩
  · obtain ⟨x, hx⟩ := List.exists_mem_of_ne_nil _ hne
    obtain ⟨ref, href, hx⟩ := List.mem_filterMap.1 hx
    have hall : ∀ ref ∈ refs, ref.isSome → hasLandmark g n :=
      mapM_forall hrefs fun i hi ref hrun hs =>
        ⟨i, List.mem_range.1 hi, (ctxRef_isSome (List.mem_range.1 hi) hrun).1 hs⟩
    obtain rfl : ref = some x := hx
    exact hall _ href rfl
  · obtain ⟨ref, hrun, hget⟩ := mapM_getElem hrefs (List.getElem?_range hi)
    obtain ⟨x, hx⟩ := Option.isSome_iff_exists.1 ((ctxRef_isSome hi hrun).2 hc)
    exact List.ne_nil_of_mem (List.mem_filterMap.2 ⟨ref, List.mem_of_getElem? hget, hx⟩)

theorem buildSchema_full {rec : Nat} {hrec : 1 ≤ rec ∧ rec ≤ schemaMax}
    (h : buildSchema D corpus rec hrec = .ok sc) : FullRows sc.scRec sc.scCum := by
  obtain ⟨rows, hrows, h⟩ := bind_eq_ok.1 h
  obtain rfl := Except.ok.inj h
  have hlen := mapM_length hrows
  rw [List.length_range] at hlen
  dsimp only
  rw [← hlen]
  exact fullRows_getD (mapM_forall hrows fun _ _ _ => schemaPos_row)

/-! ## Landmarks are built -/

section

variable {T : Counts} (h : Represents B T g) (hle : T.pairs.length ≤ 2 ^ 31)

include h hle

theorem trained_ctxAt {i : Nat} (hi : i < g.ctx.used) :
    btV3CtxAt g i = .ok (some (g.ctx.pool i)) ∧ (∃ ctx, ctxOut (g.ctx.pool i) = .ok ctx) ∧
      ∃ freq, freq256 B g (g.ctx.pool i) = .ok freq := by
  have hlt := h.ctx.used ▸ hi
  obtain ⟨c, hc⟩ : ∃ c, T.ctxs[i]? = some c := ⟨_, List.getElem?_eq_getElem hlt⟩
  have hsame := (h.ctx.entry i c hc).same
  rw [ctxSame, sameCtx, Bool.and_eq_true, decide_eq_true_eq] at hsame
  obtain ⟨b, hb⟩ := h.sound.ctxs_pairs c (List.mem_of_getElem? hc)
  have hshort := (h.short c (h.sound.pairs_seen _ hb)).2
  refine ⟨?_, ⟨_, if_pos (hsame.1.trans_le hshort)⟩, ?_⟩
  · rw [btV3CtxAt, if_neg (Nat.not_le.2 hi), Table.read_ok (hi.trans_le h.ctx.indexed.used_le)]
    rfl
  · rw [freq256, h.nextBytes_eq hle hc]
    exact ⟨_, rfl⟩

theorem buildLandmarks_total
    (hdist : ∀ w, ∃ cum, btV3DistributionR B luts (g.reader B w) rcScale = .ok cum) (D : Doubles)
    (qsort : Sorting CtxRef.before) (hn : 1 ≤ n ∧ n ≤ btMaxDepth) (k : UInt32) :
    ∃ lm, buildLandmarks B luts D qsort g n hn k = .ok lm := by
  have href : ∀ i < g.ctx.used, ∃ ref, ctxRef g n i = .ok ref ∧
      ∀ x, ref = some x → x.idx = i := by
    intro i hi
    obtain ⟨hat, ⟨ctx, hctx⟩, -⟩ := trained_ctxAt h hle hi
    refine ⟨if (g.ctx.pool i).ctxLen.toNat = n ∧ 0 < (g.ctx.pool i).totalFreq then
      some ⟨i, (g.ctx.pool i).totalFreq⟩ else none, ?_, fun x hx => ?_⟩
    · rw [ctxRef, hat, ok_bind]
      dsimp only
      rw [hctx, ok_bind]
      rfl
    · split_ifs at hx
      obtain rfl := Option.some.inj hx
      rfl
  obtain ⟨refs, hrefs⟩ := mapM_ok (l := List.range g.ctx.used) (f := ctxRef g n) fun i hi =>
    (href i (List.mem_range.1 hi)).imp fun _ h => h.1
  have hidx : ∀ ref ∈ refs, ∀ x, ref = some x → x.idx < g.ctx.used :=
    mapM_forall hrefs fun i hi ref hrun x hx => by
      have hi := List.mem_range.1 hi
      obtain ⟨ref', hrun', hx'⟩ := href i hi
      obtain rfl := Except.ok.inj (hrun'.symm.trans hrun)
      exact (hx' x hx).trans_lt hi
  obtain ⟨rows, hrows⟩ := mapM_ok (f := landmark B luts D g n)
    (l := foremost qsort k.toNat (refs.filterMap id)) fun x hx => by
      have hmem := mem_of_mem_foremost qsort hx
      obtain ⟨ref, href, hx⟩ := List.mem_filterMap.1 hmem
      obtain ⟨hat, ⟨ctx, hctx⟩, freq, hfreq⟩ := trained_ctxAt h hle (hidx ref href x hx)
      obtain ⟨cum, hcum⟩ := hdist ⟨ctx.take (min n btMaxDepth), by
        rw [List.length_take]
        omega⟩
      obtain ⟨w, hw, -⟩ := landmarkRow_ok D freq (g.ctx.pool x.idx).totalFreq cum
      rw [landmark, hat, ok_bind]
      dsimp only
      rw [hctx, ok_bind, hfreq, ok_bind, hcum, ok_bind, hw, ok_bind]
      exact ⟨_, rfl⟩
  rw [foremost] at hrows
  rw [buildLandmarks, hrefs, ok_bind]
  dsimp only
  rw [hrows, ok_bind]
  exact ⟨_, rfl⟩

end

/-! ## A schema is built -/

theorem scaleUp_exact {n fuel : Nat} {x : ℚ} (h : 1 ≤ x * 2 ^ n) (hfuel : n < fuel) (e : Int) :
    ∃ y e', scaleUp .exact fuel x e = .ok (y, e') ∧ (y ≤ x ∨ y < 2) := by
  induction n generalizing x e fuel with
  | zero =>
    obtain ⟨fuel, rfl⟩ := Nat.exists_eq_add_of_lt hfuel
    rw [pow_zero, mul_one] at h
    exact ⟨x, e, if_neg (not_lt.2 h), .inl le_rfl⟩
  | succ n ih =>
    obtain ⟨fuel, rfl⟩ := Nat.exists_eq_succ_of_ne_zero (Nat.ne_zero_of_lt hfuel)
    by_cases hx : x < 1
    · obtain ⟨y, e', hy, hle⟩ := ih (x := x * 2) (by rwa [mul_assoc, ← pow_succ'])
        (Nat.lt_of_succ_lt_succ hfuel) (e - 1)
      refine ⟨y, e', (if_pos hx).trans hy, .inr ?_⟩
      rcases hle with hle | hlt
      · linarith
      · exact hlt
    · exact ⟨x, e, if_neg hx, .inl le_rfl⟩

theorem bcbLog2Nolibm_exact {x : ℚ} (h : 1 ≤ x * 2 ^ 80) (hx : x < 2) :
    ∃ y, bcbLog2Nolibm .exact x = .ok y := by
  have hpos : ¬ x ≤ 0 := by
    intro hle
    norm_num at h
    linarith
  obtain ⟨y, e, hy, hle⟩ := scaleUp_exact h (show 80 < 1100 by norm_num) 0
  have hlt : y < 2 := hle.elim (fun h => h.trans_lt hx) id
  have hdown : scaleDown .exact 1100 y e = .ok (y, e) := if_neg (not_le.2 hlt)
  rw [bcbLog2Nolibm, if_neg hpos, hy, ok_bind]
  dsimp only
  rw [hdown, ok_bind]
  exact ⟨_, rfl⟩

/-- Counts of at most `n` each. -/
def AtMost (n : Nat) (f : UInt8 → ℚ) : Prop := ∀ b, 0 ≤ f b ∧ f b ≤ n

theorem AtMost.succ {n : Nat} {f : UInt8 → ℚ} (h : AtMost n f) : AtMost (n + 1) f := by
  intro b
  push_cast
  exact ⟨(h b).1, by linarith [(h b).2]⟩

theorem AtMost.add {n : Nat} {f : UInt8 → ℚ} (h : AtMost n f) (b : UInt8) :
    AtMost (n + 1) (Function.update f b (Doubles.exact.add (f b) 1)) := by
  intro b'
  obtain ⟨h0, hle⟩ := h b
  have hadd : Doubles.exact.add (f b) 1 = f b + 1 := rfl
  rw [Function.update_apply, hadd]
  split_ifs
  · push_cast
    exact ⟨by linarith, by linarith⟩
  · exact h.succ b'

theorem sumDoubles_exact {n : Nat} {f : UInt8 → ℚ} (h : AtMost n f) :
    0 ≤ sumDoubles .exact f ∧ sumDoubles .exact f ≤ 256 * n := by
  have hrun : ∀ m, 0 ≤ (List.range m).foldl (fun sum b => sum + f (UInt8.ofNat b)) 0 ∧
      (List.range m).foldl (fun sum b => sum + f (UInt8.ofNat b)) 0 ≤ m * n := by
    intro m
    induction m with
    | zero => simp
    | succ m ih =>
      obtain ⟨h0, hle⟩ := h (UInt8.ofNat m)
      rw [List.range_succ, List.foldl_append, List.foldl_cons, List.foldl_nil]
      push_cast
      exact ⟨by linarith [ih.1], by linarith [ih.2]⟩
  have h256 := hrun 256
  push_cast at h256
  exact h256

theorem logProb_exact {n : Nat} (hn : n < 2 ^ 64) {f : UInt8 → ℚ} (h : AtMost n f) (b : UInt8) :
    ∃ y, logProb .exact f b = .ok y := by
  obtain ⟨h0, hle⟩ := h b
  obtain ⟨hsum0, hsum⟩ := sumDoubles_exact h
  have hfb : f b ≤ sumDoubles .exact f :=
    le_sumDoubles (fun b => ⟨(h b).1, Set.mem_univ _⟩) b
  have hnQ : (n : ℚ) < 2 ^ 64 := by exact_mod_cast hn
  have hden : (0 : ℚ) < sumDoubles .exact f + 64 := by linarith
  apply bcbLog2Nolibm_exact
  · change 1 ≤ (f b + 64 / 256) / (sumDoubles .exact f + 64) * 2 ^ 80
    rw [div_mul_eq_mul_div, le_div_iff₀ hden]
    norm_num
    linarith
  · change (f b + 64 / 256) / (sumDoubles .exact f + 64) < 2
    rw [div_lt_iff₀ hden]
    linarith

section

variable {rec pp r nrec : Nat} (hrec : rec * nrec ≤ corpus.length) (hpp : pp < rec)

include hrec hpp

theorem corpusAt_ok (hr : r < nrec) : ∃ b, corpusAt corpus (r * rec + pp) = .ok b := by
  have hlt : r * rec + pp < corpus.length := by
    calc r * rec + pp < r * rec + rec := Nat.add_lt_add_left hpp _
      _ = rec * (r + 1) := by ring
      _ ≤ rec * nrec := Nat.mul_le_mul_left _ hr
      _ ≤ corpus.length := hrec
  rw [corpusAt, List.getElem?_eq_getElem hlt]
  exact ⟨_, rfl⟩

theorem deltaAt_ok (hr : r < nrec) (b : UInt8) : ∃ d, deltaAt corpus rec pp r b = .ok d := by
  obtain ⟨prev, hprev⟩ := corpusAt_ok hrec hpp (r := r - 1) ((Nat.sub_le _ _).trans_lt hr)
  exact ⟨b - prev, by rw [deltaAt, hprev]; rfl⟩

theorem countRecord_exact {n : Nat} {f : Freqs} (hbf : AtMost n f.bf) (hdf : AtMost n f.df)
    (hr : r < nrec) : ∃ f', countRecord .exact corpus rec pp f r = .ok f' ∧
      AtMost (n + 1) f'.bf ∧ AtMost (n + 1) f'.df := by
  obtain ⟨b, hb⟩ := corpusAt_ok hrec hpp hr
  obtain ⟨d, hd⟩ := deltaAt_ok hrec hpp hr b
  rw [countRecord, hb, ok_bind]
  split_ifs
  · rw [hd, ok_bind]
    exact ⟨_, rfl, hbf.add b, hdf.add d⟩
  · exact ⟨_, rfl, hbf.add b, hdf.succ⟩

theorem countRecords_exact (lo : Nat) {n hi : Nat} {f : Freqs} (hbf : AtMost n f.bf)
    (hdf : AtMost n f.df)
    (hhi : hi ≤ nrec) : ∃ f', countRecords .exact corpus rec pp lo hi f = .ok f' ∧
      AtMost (n + (hi - lo)) f'.bf ∧ AtMost (n + (hi - lo)) f'.df := by
  obtain ⟨f', hrun, hf'⟩ := foldlM_ok (f := countRecord .exact corpus rec pp)
    (l := List.range' lo (hi - lo)) (b := f)
    (P := fun pre f => AtMost (n + pre.length) f.bf ∧ AtMost (n + pre.length) f.df) ⟨hbf, hdf⟩
    (fun pre r post hl f hf => by
      have hmem : r ∈ List.range' lo (hi - lo) := hl ▸ List.mem_append_right _ List.mem_cons_self
      obtain ⟨f', hstep, hf'⟩ := countRecord_exact hrec hpp hf.1 hf.2 (r := r)
        (by have := List.mem_range'_1.1 hmem; omega)
      rw [List.length_append, List.length_singleton]
      exact ⟨f', hstep, hf'⟩)
  rw [List.length_range'] at hf'
  exact ⟨f', hrun, hf'⟩

theorem useDelta_exact {n nfit : Nat} (hn : n < 2 ^ 64) {f : Freqs} (hbf : AtMost n f.bf)
    (hdf : AtMost n f.df) : ∃ delta, useDelta .exact corpus rec pp nfit nrec f = .ok delta := by
  obtain ⟨c, hc, -⟩ := foldlM_ok (f := costRecord .exact corpus rec pp f)
    (l := List.range' (if nfit < nrec then nfit else 1) (nrec - if nfit < nrec then nfit else 1))
    (b := ⟨0, 0⟩) (P := fun _ _ => True) trivial (fun pre r post hl c _ => by
      have hmem := hl ▸ List.mem_append_right pre (List.mem_cons_self (a := r) (l := post))
      have hr : r < nrec := by
        have := List.mem_range'_1.1 hmem
        split_ifs at this <;> omega
      obtain ⟨b, hb⟩ := corpusAt_ok hrec hpp hr
      obtain ⟨d, hd⟩ := deltaAt_ok hrec hpp hr b
      obtain ⟨lb, hlb⟩ := logProb_exact hn hbf b
      obtain ⟨ld, hld⟩ := logProb_exact hn hdf d
      rw [costRecord, hb, ok_bind, hlb, ok_bind, hd, ok_bind, hld, ok_bind]
      exact ⟨_, rfl, trivial⟩)
  rw [useDelta, hc, ok_bind]
  exact ⟨_, rfl⟩

end

/-- In exact arithmetic every corpus of two records or more has its tables. -/
theorem buildSchema_exact {rec : Nat} (hrec : 1 ≤ rec ∧ rec ≤ schemaMax)
    (hlt : corpus.length < 2 ^ 64) : ∃ sc, buildSchema .exact corpus rec hrec = .ok sc := by
  have hle : rec * (corpus.length / rec) ≤ corpus.length := Nat.mul_div_le _ _
  have hn : corpus.length / rec < 2 ^ 64 := (Nat.div_le_self _ _).trans_lt hlt
  obtain ⟨nfit, hnfit, hfit⟩ : ∃ nfit, nfit = (if 5 ≤ corpus.length / rec then
      corpus.length / rec * 4 / 5 else corpus.length / rec) ∧ nfit ≤ corpus.length / rec := by
    refine ⟨_, rfl, ?_⟩
    split_ifs <;> omega
  have hzero : AtMost 0 fun _ => (0 : ℚ) := fun _ => ⟨le_rfl, Nat.cast_nonneg _⟩
  obtain ⟨rows, hrows⟩ := mapM_ok (l := List.range rec)
    (f := schemaPos .exact corpus rec nfit (corpus.length / rec)) fun pp hpp => by
      have hpp := List.mem_range.1 hpp
      obtain ⟨f, hf, hbf, hdf⟩ := countRecords_exact hle hpp 0
        (f := ⟨fun _ => 0, fun _ => 0⟩) hzero hzero hfit
      obtain ⟨delta, hdelta⟩ := useDelta_exact hle hpp (n := 0 + (nfit - 0))
        (by omega) hbf hdf
      obtain ⟨f', hf', hbf', hdf'⟩ := countRecords_exact hle hpp nfit hbf hdf le_rfl
      obtain ⟨w, hw, -⟩ := lmQuantize_sum (D := .exact)
        (P := if delta then f'.df else f'.bf) fun b => by
          split_ifs
          · exact ⟨(hdf' b).1, Set.mem_univ _⟩
          · exact ⟨(hbf' b).1, Set.mem_univ _⟩
      rw [schemaPos, hf, ok_bind, hdelta, ok_bind, hf', ok_bind, schemaRow, hw, ok_bind]
      exact ⟨_, rfl⟩
  rw [buildSchema, ← hnfit, hrows, ok_bind]
  exact ⟨_, rfl⟩

/-! ## Decoding -/

/-- `acc == scale` for every row of a loaded prior. -/
structure RowsUsable (p : BcbPrior) : Prop where
  lm : ∀ k < p.lmK, ∃ w, p.lmCum k = .ok w ∧ (∀ b, 1 ≤ w b) ∧ cumOf w 256 = rcScale
  sc : ∀ pos < p.schemaPos, ∃ w, p.schemaCum pos = .ok w ∧ (∀ b, 1 ≤ w b) ∧ cumOf w 256 = rcScale

theorem FullRow.cumOf {w : UInt8 → Nat} (h : FullRow rcScale w) : cumOf w 256 = rcScale := by
  have hsum := h.sum
  rw [cumOf_eq (by rw [hsum]; decide), hsum]

theorem rowsUsable_of_saved {M : Memory} {r : Registered} {im : Image} {p : BcbPrior}
    (hlm : FullRows r.lmK r.lmCum) (hsc : FullRows r.scRec r.scCum) (hsaved : Saved B M r g im)
    (hload : priorParse B im = .ok (some p)) : RowsUsable p := by
  obtain ⟨-, -, slot, mask, -, rfl⟩ := priorParse_some hload
  constructor
  · intro k hk
    have hk' : k < r.lmK := by
      change k < (Prior.header _).lmK % 2 ^ 32 at hk
      rw [hsaved.header] at hk
      exact hk.trans_le (Nat.mod_le _ _)
    exact ⟨_, hsaved.lmCum hk', (hlm k hk').pos, (hlm k hk').cumOf⟩
  · intro pos hpos
    have hpos' : pos < r.scRec := by
      change pos < (Prior.header _).schemaPos at hpos
      rw [hsaved.header] at hpos
      exact hpos.trans_eq r.scPos_eq
    exact ⟨_, hsaved.schemaCum hpos', (hsc pos hpos').pos, (hsc pos hpos').cumOf⟩

/-- Every quantised row is full, and so is every row that a loaded prior was built with. -/
theorem quantised_rows_usable (D : Doubles) :
    (∀ {P : UInt8 → ℚ} {sum : ℚ} {scale : Nat}, Weights P sum → 256 ≤ scale → scale ≤ 65535 →
      ∃ w, (∀ U, lmQuantize D U P sum scale = .ok w) ∧ FullRow scale w) ∧
    (∀ {B luts m qsort g n hn k lm file p}, buildLandmarks B luts D qsort g n hn k = .ok lm →
      bcbPriorSave B m (registered (some lm) none) g = some file →
      priorParse B (.ofList file) = .ok (some p) → RowsUsable p) ∧
    ∀ {B m g corpus rec hrec sc file p}, buildSchema D corpus rec hrec = .ok sc →
      bcbPriorSave B m (registered none (some sc)) g = some file →
      priorParse B (.ofList file) = .ok (some p) → RowsUsable p := by
  refine ⟨fun h hscale hscale' => h.lmQuantize_ok D hscale hscale', ?_, ?_⟩
  · intro B luts m qsort g n hn k lm file p hlm hsave hload
    exact rowsUsable_of_saved (buildLandmarks_full hlm) (fun i hi => absurd hi (Nat.not_lt_zero i))
      (bcbPriorSave_saved hsave) hload
  · intro B m g corpus rec hrec sc file p hsc hsave hload
    exact rowsUsable_of_saved (fun i hi => absurd hi (Nat.not_lt_zero i)) (buildSchema_full hsc)
      (bcbPriorSave_saved hsave) hload

theorem aba_loads : ∃ g, btV3TrainAll .plain (fun _ _ => .succeeds) [97, 98, 97]
      (btV3Init .plain (fun _ => blankBt) fun _ => blankCtx) = .ok g ∧
    (∃ T, Represents .plain T g ∧ T.pairs.length ≤ 2 ^ 31) ∧
    (∀ w, ∃ cum, btV3DistributionR .plain true (g.reader .plain w) rcScale = .ok cum) ∧
    ∀ r, ∃ file p, bcbPriorSave .plain ⟨fun _ _ => 0, fun _ _ => 0⟩ r g = some file ∧
      priorParse .plain (.ofList file) = .ok (some p) ∧ ReadsBack .plain r g p := by
  obtain ⟨g, hrun, hbt, hctx, hslots⟩ := aba_sizes
  obtain ⟨T, hT, htotal⟩ := (trainAll_after hrun (by omega)).totals
  have hle : T.pairs.length ≤ 2 ^ 31 := by
    rw [← hT.bt.used]
    omega
  have hroom : g.ctx.used < g.ctx.nslots := by omega
  refine ⟨g, hrun, ⟨T, hT, hle⟩, fun w => ?_, fun r => ?_⟩
  · exact (hT.ample hle hroom (by decide) htotal w).imp fun _ h => h.1
  · obtain ⟨file, hsave⟩ := bcbPriorSave_some .plain ⟨fun _ _ => 0, fun _ _ => 0⟩ r
      (g := g) (by omega) (by omega) (by omega)
    obtain ⟨p, hload, hback⟩ :=
      ((bcbPriorSave_saved hsave).parse_iff (trainAll_linked hrun) hT).2 hroom
    exact ⟨file, p, hsave, hload, hback⟩

theorem quantised_rows_usable_aba :
    (∃ w, (∀ U, lmQuantize .exact U (fun b => if b = 7 then 1 else 0) 1 16384 = .ok w) ∧
      FullRow 16384 w) ∧
    ∃ g lm sc file file' p p', btV3TrainAll .plain (fun _ _ => .succeeds) [97, 98, 97]
        (btV3Init .plain (fun _ => blankBt) fun _ => blankCtx) = .ok g ∧
      buildLandmarks .plain true .exact (.stable _) g 1 (by decide) 5 = .ok lm ∧
      bcbPriorSave .plain ⟨fun _ _ => 0, fun _ _ => 0⟩ (registered (some lm) none) g = some file ∧
      priorParse .plain (.ofList file) = .ok (some p) ∧ RowsUsable p ∧
      buildSchema .exact [97, 98] 1 (by decide) = .ok sc ∧
      bcbPriorSave .plain ⟨fun _ _ => 0, fun _ _ => 0⟩ (registered none (some sc)) g =
        some file' ∧
      priorParse .plain (.ofList file') = .ok (some p') ∧ RowsUsable p' := by
  obtain ⟨hrows, hlm, hsc⟩ := quantised_rows_usable .exact
  refine ⟨hrows ⟨fun b => ?_, .inr fun b => ?_⟩ (by decide) (by decide), ?_⟩
  · split_ifs <;> norm_num
  · split_ifs <;> norm_num
  · obtain ⟨g, hrun, ⟨T, hT, hle⟩, hdist, hloads⟩ := aba_loads
    obtain ⟨lm, hbuild⟩ := buildLandmarks_total hT hle hdist .exact (.stable _) (n := 1) (by decide) 5
    obtain ⟨sc, hschema⟩ := buildSchema_exact (show 1 ≤ 1 ∧ 1 ≤ schemaMax by decide)
      (show ([97, 98] : List UInt8).length < 2 ^ 64 by decide)
    obtain ⟨file, p, hsave, hload, -⟩ := hloads (registered (some lm) none)
    obtain ⟨file', p', hsave', hload', -⟩ := hloads (registered none (some sc))
    exact ⟨g, lm, sc, file, file', p, p', hrun, hbuild, hsave, hload, hlm hbuild hsave hload,
      hschema, hsave', hload', hsc hschema hsave' hload'⟩

end Bcb.Prior
