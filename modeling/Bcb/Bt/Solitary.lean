import Bcb.Bt.Ample
import Bcb.Bt.Formula

namespace Bcb.Bt

open Lib RangeCoder

variable {B : Build} {r : BtV3Reader} {G : UInt8 → Grams} {len : Nat}

/-- The same width for every byte. -/
def flatTable : Cum := cumOf fun _ => 63

/-- Nearly the whole scale for the byte 1. -/
def steepTable : Cum := cumOf fun b => if b = 1 then 15567 else 3

theorem gramTable_of_probs {f : UInt8 → Int} (h : gramProbs B G len = allBytes.map f)
    (scale : Nat) : gramTable B G len scale =
      cumOf fun b => gramWidth scale (allBytes.map f).sum (f b) := by
  rw [gramTable, h]
  refine congrArg cumOf (funext fun b => ?_)
  rw [List.map_map, getD_map_allBytes]
  rfl

theorem gramTable_flat {q : Int} (hq : 0 < q) (h : gramProbs B G len = allBytes.map fun _ => q) :
    gramTable B G len rcScale = flatTable := by
  have hsum : (allBytes.map fun _ => q).sum = 256 * q := by
    rw [List.map_const', List.sum_replicate, nsmul_eq_mul, allBytes, List.length_map,
      List.length_range]
    rfl
  have hshare : 950 * (rcScale : Int) * q / (1000 * (256 * q)) = 60 := by
    have hassoc : 1000 * (256 * q) = 256000 * q := by ring
    rw [hassoc, Int.mul_ediv_mul_of_pos_left _ _ hq]
    decide
  rw [gramTable_of_probs h, hsum]
  simp only [gramWidth, hshare]
  rfl

theorem gramTable_steep
    (h : gramProbs B G len = allBytes.map fun b => if b = 1 then 2 ^ 28 else 15) :
    gramTable B G len rcScale = steepTable := by
  have hsum : (allBytes.map fun b => if b = 1 then (2 ^ 28 : Int) else 15).sum =
      2 ^ 28 + 255 * 15 := by decide +kernel
  rw [gramTable_of_probs h, hsum]
  refine congrArg cumOf (funext fun b => ?_)
  split_ifs
  · decide
  · decide

/-! ## No context -/

section None

variable (h : ∀ n, activeAt B r n = .ok none)

include h

theorem readerGrams_none (b : UInt8) (n : Nat) : readerGrams B r b n = none := by
  simp only [readerGrams, activeOf, h, Option.map_none]

theorem btV3DistributionR_none : btV3DistributionR B true r rcScale = .ok flatTable := by
  obtain ⟨cum, hcum⟩ : ∃ cum, btV3DistributionR B true r rcScale = .ok cum :=
    btV3DistributionR_ok (fun n => ⟨none, h n⟩) fun lv hlv =>
      levelSafe_of_counts (m := 0) (by decide) (fun n => ⟨none, h n, trivial⟩) hlv
  have hprob : ∀ b, gramProb B (readerGrams B r b) r.window.bytes.length = pscale / 256 := by
    intro b
    have hterms : ∀ lv, levelTerms B (readerGrams B r b) r.window.bytes.length lv = [] := by
      intro lv
      simp only [levelTerms, readerGrams_none h, Option.map_none, List.filterMap_none]
    have hfold : levels.foldl (levelStep B (readerGrams B r b) r.window.bytes.length) (0, 0) =
        (0, 0) := by
      simp only [levels, List.foldl_cons, List.foldl_nil, levelStep, hterms, if_true]
    rw [gramProb, hfold]
    rfl
  have hprobs : gramProbs B (readerGrams B r) r.window.bytes.length =
      allBytes.map fun _ => (pscale / 256 : Int) := by
    simp only [gramProbs, hprob, ite_self]
  rw [hcum, btV3DistributionR_eq hcum, gramTable_flat (by decide) hprobs]

end None

/-! ## One context -/

section Sole

variable {e : CtxEntry} {l : List BtEntry} (hlen : r.window.bytes.length = 5)
  (hnone : ∀ n < 5, activeAt B r n = .ok none)
  (hsome : ∀ n, 5 ≤ n → activeAt B r n = .ok (some (e, l)))

include hsome

theorem readerGrams_five (b : UInt8) :
    readerGrams B r b 5 = some (e.totalFreq, actFreq l b) := by
  simp only [readerGrams, activeOf, hsome 5 le_rfl, Option.map_some]

theorem spread_of_sole {cum : Cum} (h : btV3DistributionR B true r rcScale = .ok cum)
    (hlen : r.window.bytes.length = 5) : e.totalFreq.toNat + 256 ≠ 2 ^ 32 := by
  have hsafe := levelSafe_of_btV3DistributionR h ⟨5, 8, 384⟩ (by simp [levels])
  have hmem : (⟨5, e, l⟩ : Active) ∈ levelActives B r ⟨5, 8, 384⟩ := by
    refine List.mem_filterMap.2 ⟨5, ?_, ?_⟩
    · rw [hlen]
      decide
    · simp only [activeOf, hsome 5 le_rfl]
  exact spread_ne_zero.1 (hsafe.spread _ hmem)

include hnone

theorem gramProb_sole (b : UInt8) : gramProb B (readerGrams B r b) 5 =
    min (max (countTerm B 5 e.totalFreq (actFreq l b)).2 1) pscale := by
  have hshort : ∀ n < 5, readerGrams B r b n = none := fun n hn => by
    simp only [readerGrams, activeOf, hnone n hn, Option.map_none]
  have hterms1 : levelTerms B (readerGrams B r b) 5 ⟨1, 2, 230⟩ = [] := by
    simp [levelTerms, scanOrder, List.range', hshort 1 (by decide), hshort 2 (by decide)]
  have hterms3 : levelTerms B (readerGrams B r b) 5 ⟨3, 4, 333⟩ = [] := by
    simp [levelTerms, scanOrder, List.range', hshort 3 (by decide), hshort 4 (by decide)]
  have hterms5 : levelTerms B (readerGrams B r b) 5 ⟨5, 8, 384⟩ =
      [countTerm B 5 e.totalFreq (actFreq l b)] := by
    simp [levelTerms, scanOrder, readerGrams_five hsome]
  have hok : ∀ t ∈ [countTerm B 5 e.totalFreq (actFreq l b)], TermOk t := by
    intro t ht
    obtain rfl := List.mem_singleton.1 ht
    exact countTerm_ok (by decide) _ _
  have hmean : termsMean B [countTerm B 5 e.totalFreq (actFreq l b)] =
      (countTerm B 5 e.totalFreq (actFreq l b)).2 := by
    obtain ⟨t, ht, hmax⟩ := maxL_mem hok (by simp)
    obtain rfl := List.mem_singleton.1 ht
    simp only [termsMean, weightedSum, weightTotal, hmax, List.map_cons, List.map_nil,
      List.sum_cons, List.sum_nil, Int.sub_self, expWeight_zero, Int.add_zero]
    exact Int.mul_ediv_cancel_left _ (by decide)
  have hfold : levels.foldl (levelStep B (readerGrams B r b) 5) (0, 0) =
      (384 * (countTerm B 5 e.totalFreq (actFreq l b)).2, 384) := by
    have hlong : ∀ lv ∈ [⟨9, 12, 435⟩, ⟨13, 16, 384⟩, (⟨17, 24, 282⟩ : BtLevel)], ∀ x,
        levelStep B (readerGrams B r b) 5 x lv = x := by
      intro lv hlv x
      simp only [List.mem_cons, List.not_mem_nil, or_false] at hlv
      rcases hlv with rfl | rfl | rfl <;> exact if_pos rfl
    simp only [List.forall_mem_cons] at hlong
    obtain ⟨h9, h13, h17, -⟩ := hlong
    rw [levels, List.foldl_cons, List.foldl_cons, List.foldl_cons, List.foldl_cons,
      List.foldl_cons, List.foldl_cons, List.foldl_nil, h9, h13, h17, levelStep, if_neg, hterms5,
      hmean, levelStep, if_pos hterms3, levelStep, if_pos hterms1]
    · simp
    · rw [hterms5]
      simp
  rw [gramProb, hfold, gramMean, if_pos (show (0 : Int) < 384 by decide),
    Int.mul_ediv_cancel_left _ (by decide : (384 : Int) ≠ 0)]

include hlen

theorem btV3DistributionR_sole (htotal : e.totalFreq.toNat + 256 < 2 ^ 32)
    (hfreq : ∀ x ∈ l, x.freq.toNat ≤ e.totalFreq.toNat) :
    btV3DistributionR B true r rcScale = .ok (gramTable B (readerGrams B r) 5 rcScale) := by
  have hcounts : ∀ n, ∃ o, activeAt B r n = .ok o ∧ CountsUpTo e.totalFreq.toNat o := by
    intro n
    rcases Nat.lt_or_ge n 5 with hn | hn
    · exact ⟨none, hnone n hn, trivial⟩
    · exact ⟨_, hsome n hn, le_rfl, hfreq⟩
  obtain ⟨cum, hcum⟩ : ∃ cum, btV3DistributionR B true r rcScale = .ok cum :=
    btV3DistributionR_ok (fun n => (hcounts n).imp fun _ h => h.1) fun lv hlv =>
      levelSafe_of_counts htotal hcounts hlv
  rw [hcum, btV3DistributionR_eq hcum, hlen]

/-- A context none of whose bytes has a count makes no difference. -/
theorem btV3DistributionR_blank (htotal : e.totalFreq.toNat ≤ 2 ^ 24)
    (hfreq : ∀ x ∈ l, x.freq = 0) : btV3DistributionR B true r rcScale = .ok flatTable := by
  have hspread : spread e.totalFreq = e.totalFreq.toNat + 256 := by
    rw [spread, UInt32.toNat_add]
    exact Nat.mod_eq_of_lt (by
      change e.totalFreq.toNat + 256 < 2 ^ 32
      omega)
  have hle : pscale / (e.totalFreq.toNat + 256) ≤ pscale := Nat.div_le_self _ _
  have hge : 1 ≤ pscale / (e.totalFreq.toNat + 256) := by
    rw [Nat.le_div_iff_mul_le (by omega), pscale]
    omega
  have hprobs : gramProbs B (readerGrams B r) 5 =
      allBytes.map fun _ => ((pscale / (e.totalFreq.toNat + 256) : Nat) : Int) := by
    rw [gramProbs, if_neg (by decide)]
    apply List.map_congr_left
    intro b _
    rw [gramProb_sole hnone hsome, actFreq_of_zero hfreq, countTerm, if_pos rfl, defaultTerm,
      hspread]
    omega
  have hcounts : ∀ x ∈ l, x.freq.toNat ≤ e.totalFreq.toNat := fun x hx => by
    rw [hfreq x hx]
    exact Nat.zero_le _
  rw [btV3DistributionR_sole hlen hnone hsome (by omega) hcounts,
    gramTable_flat (by omega) hprobs]

theorem btV3DistributionR_steep (htotal : e.totalFreq = 0x01000000)
    (hle : ∀ x ∈ l, x.freq.toNat ≤ 2 ^ 24)
    (hfreq : ∀ b, actFreq l b = if b = 1 then 0x01000000 else 0) :
    btV3DistributionR B true r rcScale = .ok steepTable := by
  have hnat : e.totalFreq.toNat = 2 ^ 24 := by rw [htotal]; rfl
  have hprobs : gramProbs B (readerGrams B r) 5 =
      allBytes.map fun b => if b = 1 then 2 ^ 28 else 15 := by
    rw [gramProbs, if_neg (by decide)]
    apply List.map_congr_left
    intro b _
    rw [gramProb_sole hnone hsome, hfreq, htotal]
    split_ifs
    · rfl
    · rfl
  rw [btV3DistributionR_sole hlen hnone hsome (by omega) fun x hx => (hle x hx).trans hnat.ge,
    gramTable_steep hprobs]

end Sole

end Bcb.Bt
