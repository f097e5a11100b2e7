import Bcb.Api.Shipped

namespace Bcb.Api

open Lib Foremost RangeCoder Bt Prior Codec

section Lookup

variable {B : Build} {im : Image} {p : BcbPrior} {cs : List (List UInt8)} {n : Nat}

/-- The landmarks of a prior are the contexts `cs`, of `n` bytes each. -/
structure HasLandmarks (p : BcbPrior) (n : Nat) (cs : List (List UInt8)) : Prop where
  lmK : p.lmK = cs.length
  lmN : cs ≠ [] → p.lmN = n
  lmCtx : ∀ {i l}, cs[i]? = some l → p.lmCtx i = .ok l
  length : ∀ l ∈ cs, l.length = n
  nodup : cs.Nodup
  lt : cs.length < 2 ^ 31

theorem last_of_suffix {w : Window} {l : List UInt8} (h : l <:+ w.bytes) : w.last l.length = l :=
  (List.suffix_iff_eq_drop.1 h).symm

theorem HasLandmarks.dist (h : HasLandmarks p n cs) (hp : priorParse B im = .ok (some p))
    (husable : RowsUsable p) {c : BcbCodec} {o : Option Cum}
    (hrun : landmarkDist p c rcScale = .ok o) :
    (∀ {i l}, cs[i]? = some l → l <:+ c.window.bytes →
      ∃ w, p.lmCum i = .ok w ∧ o = some (cumOf w)) ∧
    ((∀ l ∈ cs, ¬ l <:+ c.window.bytes) → o = none) := by
  have hlm := priorParse_landmarks hp
  have hctx : ∀ {i l}, cs[i]? = some l → lmBytes im (header im) i = l := by
    intro i l hi
    obtain ⟨hlt, -⟩ := List.getElem?_eq_some_iff.1 hi
    have hread := hlm.read i (hlt.trans_eq h.lmK.symm)
    exact Except.ok.inj (hread.symm.trans (h.lmCtx hi))
  simp only [landmarkDist, lmLookup_eq hlm.read hlm.lt hlm.index, ok_bind] at hrun
  constructor
  · intro i l hi hl
    obtain ⟨hlt, hget⟩ := List.getElem?_eq_some_iff.1 hi
    have hmem : l ∈ cs := List.mem_of_getElem? hi
    have hn : p.lmN = n := h.lmN (List.ne_nil_of_mem hmem)
    have hcond : p.lmK ≠ 0 ∧ True ∧ p.lmN ≤ c.window.bytes.length := by
      refine ⟨?_, trivial, ?_⟩
      · rw [h.lmK]
        omega
      · rw [hn, ← h.length l hmem]
        exact hl.length_le
    have hlast : c.window.last p.lmN = l := by
      rw [hn, ← h.length l hmem]
      exact last_of_suffix hl
    have hfind : (List.range (min p.lmK (2 ^ 31))).find?
        (fun i => lmBytes im (header im) i = l) = some i := by
      rw [List.find?_range_eq_some]
      refine ⟨decide_eq_true (hctx hi), List.mem_range.2 ?_, fun j hj => ?_⟩
      · have hlt31 := h.lt
        rw [h.lmK]
        omega
      · have hj' : j < cs.length := hj.trans hlt
        have hne : cs[j] ≠ l := fun heq =>
          hj.ne ((h.nodup.getElem_inj_iff).1 (heq.trans hget.symm))
        have hbytes := hctx (List.getElem?_eq_getElem hj')
        simpa [hbytes] using hne
    obtain ⟨w, hw, -, hsum⟩ := husable.lm i (hlt.trans_eq h.lmK.symm)
    rw [if_pos hcond, hlast, hfind] at hrun
    simp only [hw, ok_bind, if_pos hsum] at hrun
    exact ⟨w, hw, (Except.ok.inj hrun).symm⟩
  · intro hnone
    split_ifs at hrun with hcond
    · cases hfind : (List.range (min p.lmK (2 ^ 31))).find?
          (fun i => lmBytes im (header im) i = c.window.last p.lmN) with
      | none =>
        rw [hfind] at hrun
        exact (Except.ok.inj hrun).symm
      | some i =>
        obtain ⟨hi, hmem, -⟩ := List.find?_range_eq_some.1 hfind
        have hlt : i < cs.length := by
          have hmem := List.mem_range.1 hmem
          rw [h.lmK] at hmem
          omega
        have hget := List.getElem?_eq_getElem hlt
        have hlast : cs[i] = c.window.last p.lmN := (hctx hget).symm.trans (of_decide_eq_true hi)
        exact absurd (hlast ▸ List.drop_suffix _ _) (hnone _ (List.getElem_mem hlt))
    · exact (Except.ok.inj hrun).symm

end Lookup

theorem own_landmarks (t : LmTables) : (Plan.landmarks t).own.lmK = t.lmK ∧
    (Plan.landmarks t).own.scRec = 0 ∧ (t.lmK ≠ 0 → (Plan.landmarks t).own.lmN = t.lmN ∧
      (Plan.landmarks t).own.lmCtx = t.lmCtx ∧ (Plan.landmarks t).own.lmCum = t.lmCum) := by
  rw [Plan.own, LmTables.kept]
  split_ifs with h0
  · exact ⟨h0.symm, rfl, fun h => absurd h0 h⟩
  · exact ⟨rfl, rfl, fun _ => ⟨rfl, rfl, rfl⟩⟩

theorem hasLandmarks_of_own {B : Build} {D : Doubles} {g : Globals} {p : BcbPrior} {s : List UInt8}
    {cs : List (List UInt8)} {n k : Nat} {t : LmTables}
    (hback : ReadsBack B (Plan.landmarks t).own g p) (hcs : MostFrequent s n k cs)
    (hlt : cs.length < 2 ^ 31) (hlmN : t.lmN = n) (hlmK : t.lmK = cs.length)
    (hrows : ∀ r c, cs[r]? = some c →
      (List.range n).map (t.lmCtx r) = c ∧ RowOf B D s c (t.lmCum r)) : HasLandmarks p n cs := by
  obtain ⟨hk, -, hown⟩ := own_landmarks t
  have hne : ∀ {i : Nat} {l}, cs[i]? = some l → t.lmK ≠ 0 := by
    intro i l hi
    obtain ⟨hlt, -⟩ := List.getElem?_eq_some_iff.1 hi
    omega
  refine ⟨hback.lmK.trans (hk.trans hlmK), fun hnil => ?_, ?_, fun l hl => (hcs.met l hl).1,
    hcs.nodup, hlt⟩
  · have h0 : t.lmK ≠ 0 := by
      rw [hlmK]
      exact fun h => hnil (List.length_eq_zero_iff.1 h)
    obtain ⟨hn, -⟩ := hown h0
    exact (hback.lmN (by rwa [hk])).trans (hn.trans hlmN)
  · intro i l hi
    obtain ⟨hlt, -⟩ := List.getElem?_eq_some_iff.1 hi
    obtain ⟨hn, hctx, -⟩ := hown (hne hi)
    have hread := hback.lmCtx i (by rw [hk, hlmK]; exact hlt)
    rw [hn, hctx, hlmN, (hrows i l hi).1] at hread
    exact hread

/-- Every codec gets, where its window ends with one of `cs`, the row of what follows it in `s`,
and else the formula over the whole of `s`. -/
def ToldBy (B : Build) (D : Doubles) (s : List UInt8) (cs : List (List UInt8)) (p : BcbPrior) :
    Prop :=
  ∀ c, Reachable B p c → ∃ cum c', codecDist B true p rcScale c = .ok (cum, c') ∧
    (∀ l ∈ cs, l <:+ c.window.bytes →
      ∃ row, RowOf B D s l row ∧ cum = cumOf fun b => (row b).toNat) ∧
    ((∀ l ∈ cs, ¬ l <:+ c.window.bytes) →
      cum = logTable B (Ngram.log btMaxDepth s) c.window)

/-- A prior with landmarks is told by the text that it was trained on: its landmarks are the
contexts that are most frequent there, and so are the tables that its codecs get. -/
theorem trained_landmarks {B : Build} (D : Doubles) (qsort : Sorting CtxRef.before)
    (pool : Nat → BtEntry) (ctxPool : Nat → CtxEntry) {s : List UInt8} (hroom : RoomFor B (Ngram.log btMaxDepth s))
    (hs : btMaxDepth * s.length < 2 ^ 31) {n : Int} {k : UInt32}
    (hn : 1 ≤ n.toNat ∧ n.toNat ≤ btMaxDepth) (hk : k ≠ 0) :
    ∃ g cs, btV3TrainAll B (fun _ _ => .succeeds) s (btV3Init B pool ctxPool) = .ok g ∧
      MostFrequent s n.toNat k.toNat cs ∧
      ∀ (io : Io) (pad : Padding) {file : List UInt8} {proc : Prior.Process},
        (Prior.Call.mk (.withLandmarks n k) g ⟨pad, fun _ => 0⟩ qsort io).step B true D .initial =
          .ok (some ⟨file, true⟩, proc) → file.length < 2 ^ 63 →
        ∃ p, priorParse B (.ofList file) = .ok (some p) ∧ ToldBy B D s cs p := by
  have hus : (Ngram.log btMaxDepth s).length < 2 ^ 31 := (Ngram.log_length_le _ _).trans_lt hs
  obtain ⟨g, hrun, hg, -⟩ := trainAll_counted pool ctxPool hroom
    ((List.toFinset_card_le _).trans hus.le)
  obtain ⟨t, hbuild, hlmN, hlmK, hrows⟩ := buildLandmarks_chosen hg hs D qsort hn k
  have hcs := chosen_mostFrequent qsort hs hn k.toNat
  have hlt := (chosen_length_le qsort (Ngram.log btMaxDepth s) n.toNat k.toNat).trans_lt hus
  generalize chosen qsort (Ngram.log btMaxDepth s) n.toNat k.toNat = cs at hlmK hrows hcs hlt
  refine ⟨g, cs, hrun, hcs, fun io pad file proc hstep hsize => ?_⟩
  obtain ⟨plan, p, hplan, hload, hback, husable⟩ := trained_loads hrun hg hstep hsize
  obtain rfl : plan = .landmarks t := by
    rw [Entry.plan, dif_pos ⟨hn, hk⟩, hbuild] at hplan
    exact (Except.ok.inj hplan).symm
  obtain ⟨-, hrec, hown⟩ := own_landmarks t
  have hlm := hasLandmarks_of_own hback hcs hlt hlmN hlmK hrows
  have hplain : structural p = false := by
    rw [structural, hback.schemaRec, hrec]
    rfl
  have hcod : TablesCodable B p := tablesCodable_of_usable hload husable
  have htab : TablesStrict B p := tablesStrict_of_codable hload hcod fun w =>
    ⟨_, (hback.distribution w rcScale).trans (hg.table hus w).1⟩
  refine ⟨p, hload, fun c hc => ?_⟩
  obtain ⟨cum, c', hdist, -⟩ := htab hc
  refine ⟨cum, c', hdist, ?_⟩
  obtain ⟨-, hdist⟩ := codecDist_ok hc.coherent hdist
  rw [codecDist, hplain, if_neg Bool.false_ne_true] at hdist
  obtain ⟨o, hland, hdist⟩ := bind_eq_ok.1 hdist
  obtain ⟨hrow, hnone⟩ := hlm.dist hload husable hland
  constructor
  · intro l hl hsuffix
    obtain ⟨i, hi⟩ := List.mem_iff_getElem?.1 hl
    obtain ⟨hilt, -⟩ := List.getElem?_eq_some_iff.1 hi
    obtain ⟨w, hw, rfl⟩ := hrow hi hsuffix
    obtain ⟨-, -, hcum⟩ := hown (by omega)
    have hread := hback.lmCum i ((hilt.trans_eq hlmK.symm).trans_eq (own_landmarks t).1.symm)
    rw [hw, hcum] at hread
    refine ⟨t.lmCum i, (hrows i l hi).2, ?_⟩
    obtain rfl := Except.ok.inj hread
    exact (congrArg Prod.fst (Except.ok.inj hdist)).symm
  · intro hno
    obtain rfl := hnone hno
    obtain ⟨cum', hbt, hret⟩ := bind_eq_ok.1 hdist
    obtain rfl := congrArg Prod.fst (Except.ok.inj hret)
    have htable := (hback.distribution c.window rcScale).trans (hg.table hus c.window).1
    exact Except.ok.inj (hbt.symm.trans htable)

theorem trained_landmarks_aba : ∃ g cs file proc p,
    btV3TrainAll .plain (fun _ _ => .succeeds) [97, 98, 97]
      (btV3Init .plain (fun _ => blankBt) fun _ => blankCtx) = .ok g ∧
    MostFrequent [97, 98, 97] 1 2 cs ∧
    (Prior.Call.mk (.withLandmarks 1 2) g ⟨⟨fun _ _ => 0, fun _ _ => 0⟩, fun _ => 0⟩
      (.stable _) ⟨true, fun _ n => n, true⟩).step .plain true .exact .initial =
        .ok (some ⟨file, true⟩, proc) ∧
    priorParse .plain (.ofList file) = .ok (some p) ∧ ToldBy .plain .exact [97, 98, 97] cs p := by
  obtain ⟨g, file, proc, hrun, hstep, hsize⟩ := reported_aba
  obtain ⟨g1, cs, hrun1, hcs, hall⟩ := trained_landmarks (B := .plain) .exact (.stable _)
    (fun _ => blankBt) (fun _ => blankCtx) (s := [97, 98, 97]) (.inl rfl) (by decide) (n := 1) (k := 2)
    (by decide) (by decide)
  obtain rfl := Except.ok.inj (hrun.symm.trans hrun1)
  obtain ⟨p, hload, htold⟩ := hall _ _ hstep hsize
  exact ⟨g, cs, file, proc, p, hrun, hcs, hstep, hload, htold⟩

end Bcb.Api
