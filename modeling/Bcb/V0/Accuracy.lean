import Bcb.Bt.Grams
import Bcb.V0.Terms

namespace Bcb.V0

open Lib Bt RangeCoder WeightedMean

/-- Each context was met, and no byte more often than it. -/
def GramsLe (G : Grams) : Prop := ∀ n x, G n = some x → CountsLe x.1 x.2

section Level

variable {B : Build} {G : Grams} {len : Nat} {lv : Bt.BtLevel}

theorem levelTerms_eq (B : Build) (G : Grams) (len : Nat) (lv : Bt.BtLevel) :
    levelTerms B G len lv =
      (levelCounts G len lv.dmin lv.dmax).map fun x => countTerm B x.1 x.2.1 x.2.2 := by
  rw [levelTerms, levelCounts, List.map_filterMap]
  congr 1
  funext n
  cases G n <;> rfl

theorem levelTerms_eq_nil (B : Build) (G : Grams) (len : Nat) (lv : Bt.BtLevel) :
    levelTerms B G len lv = [] ↔ levelCounts G len lv.dmin lv.dmax = [] := by
  rw [levelTerms_eq, List.map_eq_nil_iff]

theorem mem_levelCounts {dmin dmax : Nat} {x : Nat × UInt32 × UInt32}
    (h : x ∈ levelCounts G len dmin dmax) :
    x.1 ∈ scanOrder dmin (min len dmax) ∧ G x.1 = some x.2 := by
  obtain ⟨n, hn, hx⟩ := List.mem_filterMap.1 h
  cases hG : G n with
  | none =>
    rw [hG] at hx
    cases hx
  | some y =>
    rw [hG] at hx
    obtain rfl := Option.some.inj hx
    exact ⟨hn, hG⟩

theorem levelCounts_length (hlv : lv ∈ Bt.levels) :
    (levelCounts G len lv.dmin lv.dmax).length ≤ 8 := by
  have hspan : ∀ lv ∈ Bt.levels, lv.dmax + 1 - lv.dmin ≤ 8 := by decide
  have hle : (levelCounts G len lv.dmin lv.dmax).length ≤
      (scanOrder lv.dmin (min len lv.dmax)).length := List.length_filterMap_le _ _
  have hlv := hspan lv hlv
  rw [scanOrder, List.length_reverse, List.length_range'] at hle
  omega

/-- The terms of a level, and what they are rounded from. -/
noncomputable def levelItems (B : Build) (m : Int) (xs : List (Nat × UInt32 × UInt32)) :
    List Item := xs.map fun x => termItem B m x.1 x.2.1 x.2.2

theorem levelItems_total (B : Build) (m : Int) (xs : List (Nat × UInt32 × UInt32)) :
    total (levelItems B m xs) =
      weightTotal B m (xs.map fun x => countTerm B x.1 x.2.1 x.2.2) := by
  induction xs with
  | nil => simp [levelItems, total, weightTotal]
  | cons x xs ih =>
    rw [List.map_cons, weightTotal_cons]
    push_cast
    rw [← ih]
    rfl

theorem levelItems_sum (B : Build) (m : Int) (xs : List (Nat × UInt32 × UInt32)) :
    sum (levelItems B m xs) =
      weightedSum B m (xs.map fun x => countTerm B x.1 x.2.1 x.2.2) := by
  induction xs with
  | nil => simp [levelItems, sum, weightedSum]
  | cons x xs ih =>
    rw [List.map_cons, weightedSum_cons]
    push_cast
    rw [← ih]
    rfl

@[simp] theorem levelItems_meantTotal (B : Build) (m : Int) (xs : List (Nat × UInt32 × UInt32)) :
    meantTotal (levelItems B m xs) = sumW xs := by
  simp [levelItems, meantTotal, sumW, termItem, Function.comp_def]

@[simp] theorem levelItems_meantSum (B : Build) (m : Int) (xs : List (Nat × UInt32 × UInt32)) :
    meantSum (levelItems B m xs) = sumWP xs * 2 ^ 28 := by
  induction xs with
  | nil => simp [levelItems, meantSum, sumWP]
  | cons x xs ih =>
    change predictW _ _ * (predictP _ _ * (2 ^ 28 : Nat)) + meantSum (levelItems B m xs) =
      (predictW _ _ * predictP _ _ + sumWP xs) * 2 ^ 28
    rw [ih]
    push_cast
    ring

/-- What a level's average may be changed by. -/
noncomputable def levelFactor (B : Build) : ℝ :=
  weightFactor B * weightFactor B * (1 + 1 / (2 ^ 24 : Nat))

theorem levelFactor_eq (B : Build) :
    levelFactor B = weightFactor B * weightFactor B * (1 + 1 / 2 ^ 24) := by
  rw [levelFactor, Nat.cast_pow, Nat.cast_ofNat]

theorem weightFactor_pos (B : Build) : 0 < weightFactor B := by
  have hstep := one_le_confStep B
  unfold weightFactor
  positivity

theorem levelItems_within (hlv : lv ∈ Bt.levels) (hG : GramsLe G) :
    ∀ t ∈ levelItems B (maxL (levelTerms B G len lv)) (levelCounts G len lv.dmin lv.dmax),
      t.Within (2 ^ 28 * 2 ^ (-((maxL (levelTerms B G len lv) : Int) : ℝ) / 2 ^ 16))
        (weightFactor B) 2 1 1 (2 ^ 28) := by
  intro t ht
  obtain ⟨x, hx, rfl⟩ := List.mem_map.1 ht
  obtain ⟨hn, hsome⟩ := mem_levelCounts hx
  have hdepth : x.1 ≤ btMaxDepth := (mem_scanOrder hn).trans
    ((Nat.min_le_right _ _).trans (levels_bounds lv hlv).2.1)
  apply termItem_within hdepth (hG x.1 x.2 hsome)
  apply (le_maxL_of_acc (levelTerms B G len lv) (-2 ^ 63)).2
  rw [levelTerms_eq]
  exact List.mem_map.2 ⟨x, hx, rfl⟩

theorem levelTerms_ok (hlv : lv ∈ Bt.levels) : ∀ t ∈ levelTerms B G len lv, TermOk t := by
  intro t ht
  rw [levelTerms_eq] at ht
  obtain ⟨x, hx, rfl⟩ := List.mem_map.1 ht
  exact countTerm_ok ((mem_scanOrder (mem_levelCounts hx).1).trans
    ((Nat.min_le_right _ _).trans (levels_bounds lv hlv).2.1)) _ _

theorem termsMean_near (hlv : lv ∈ Bt.levels) (hG : GramsLe G)
    (hne : levelCounts G len lv.dmin lv.dmax ≠ []) {M : ℝ}
    (hM : M = sumWP (levelCounts G len lv.dmin lv.dmax) /
      sumW (levelCounts G len lv.dmin lv.dmax) * 2 ^ 28) :
    0 ≤ termsMean B (levelTerms B G len lv) ∧
      (termsMean B (levelTerms B G len lv) : ℝ) ≤ levelFactor B * M ∧
      M ≤ levelFactor B * (termsMean B (levelTerms B G len lv) + 18) := by
  have hwf := weightFactor_pos B
  have hok : ∀ t ∈ levelTerms B G len lv, TermOk t := levelTerms_ok hlv
  have hterms : levelTerms B G len lv ≠ [] := by
    rw [levelTerms_eq]
    simpa using hne
  have hc : (0 : ℝ) < 2 ^ 28 * 2 ^ (-((maxL (levelTerms B G len lv) : Int) : ℝ) / 2 ^ 16) := by
    positivity
  have hsums := sumsWithin hwf.le zero_le_two hc.le (@levelItems_within B G len lv hlv hG)
  have hge := weightTotal_ge (B := B) hok hterms
  have hnum := weightedSum_nonneg (B := B) (m := maxL (levelTerms B G len lv)) hok
  have hS : (2 : ℝ) ^ 28 ≤ total (levelItems B (maxL (levelTerms B G len lv))
      (levelCounts G len lv.dmin lv.dmax)) := by
    rw [levelItems_total, ← levelTerms_eq]
    exact_mod_cast hge
  have hup := hsums.mean_le hwf hc zero_le_one zero_le_two (by positivity) hS
  have hdown := hsums.le_mean hwf hc zero_le_two (by positivity) (by positivity) hS
  have hlen : ((levelItems B (maxL (levelTerms B G len lv))
      (levelCounts G len lv.dmin lv.dmax)).length : ℝ) ≤ 8 := by
    rw [levelItems, List.length_map]
    exact_mod_cast levelCounts_length hlv
  have hmeant : meantSum (levelItems B (maxL (levelTerms B G len lv))
      (levelCounts G len lv.dmin lv.dmax)) / meantTotal (levelItems B
        (maxL (levelTerms B G len lv)) (levelCounts G len lv.dmin lv.dmax)) = M := by
    rw [levelItems_meantSum, levelItems_meantTotal, hM]
    ring
  rw [hmeant, levelItems_total, levelItems_sum, ← levelTerms_eq] at hup hdown
  obtain ⟨hfloor, hfloor'⟩ := ediv_near
    (weightedSum B (maxL (levelTerms B G len lv)) (levelTerms B G len lv))
    (lt_of_lt_of_le (by norm_num) hge)
  have hmean0 : 0 ≤ termsMean B (levelTerms B G len lv) :=
    Int.ediv_nonneg hnum ((by norm_num : (0 : Int) ≤ 2 ^ 28).trans hge)
  change ((termsMean B (levelTerms B G len lv) : Int) : ℝ) ≤ _ at hfloor
  change _ < ((termsMean B (levelTerms B G len lv) : Int) : ℝ) + 1 at hfloor'
  have hmeanR : (0 : ℝ) ≤ termsMean B (levelTerms B G len lv) := by exact_mod_cast hmean0
  have hwf2 : 0 < weightFactor B * weightFactor B := mul_pos hwf hwf
  have hM0 : 0 ≤ M := by
    rw [← hmeant]
    exact div_nonneg hsums.meantSum_nonneg
      (hsums.meantTotal_pos hwf hc (lt_of_lt_of_le (by positivity) hS)).le
  refine ⟨hmean0, ?_, ?_⟩
  · refine hfloor.trans (hup.trans ?_)
    rw [levelFactor_eq, mul_one]
    have hloss : 1 + ((levelItems B (maxL (levelTerms B G len lv))
        (levelCounts G len lv.dmin lv.dmax)).length : ℝ) * 2 / 2 ^ 28 ≤ 1 + 1 / 2 ^ 24 := by
      linarith
    gcongr
  · refine hdown.trans ?_
    rw [levelFactor_eq, one_mul]
    have hloss : ((levelItems B (maxL (levelTerms B G len lv))
        (levelCounts G len lv.dmin lv.dmax)).length : ℝ) * (2 * 2 ^ 28) / 2 ^ 28 ≤ 16 := by
      linarith
    calc weightFactor B * weightFactor B * _
        ≤ weightFactor B * weightFactor B * (termsMean B (levelTerms B G len lv) + 18) := by
          apply mul_le_mul_of_nonneg_left _ hwf2.le
          linarith
      _ ≤ weightFactor B * weightFactor B * (1 + 1 / 2 ^ 24) *
            (termsMean B (levelTerms B G len lv) + 18) :=
        mul_le_mul_of_nonneg_right (le_mul_of_one_le_right hwf2.le (by norm_num)) (by linarith)

end Level

section Levels

variable {B : Build} {G : Grams} {len : Nat}

/-- A level of both versions: the same orders, and a weight that is rounded to 256ths. -/
structure SameLevel (lv : Bt.BtLevel × BtLevel) : Prop where
  mem : lv.1 ∈ Bt.levels
  dmin : lv.2.dmin = lv.1.dmin
  dmax : lv.2.dmax = lv.1.dmax
  weight_pos : 0 < lv.2.weight
  wint_le : (lv.1.wint : ℝ) ≤ 501 / 500 * (256 * (lv.2.weight : ℝ))
  le_wint : 256 * (lv.2.weight : ℝ) ≤ 501 / 500 * (lv.1.wint + 0)

theorem sameLevels : ∀ lv ∈ Bt.levels.zip levels, SameLevel lv := by
  simp only [Bt.levels, levels, List.zip_cons_cons, List.zip_nil_right, List.forall_mem_cons,
    List.not_mem_nil, false_imp_iff, implies_true, and_true]
  refine ⟨?_, ?_, ?_, ?_, ?_, ?_⟩ <;> constructor <;> norm_num [Bt.levels]

/-- The average of a level, beside what it is to be. -/
noncomputable def levelItem (B : Build) (G : Grams) (len : Nat) (lv : Bt.BtLevel × BtLevel) :
    Item where
  w := lv.1.wint
  p := termsMean B (levelTerms B G len lv.1)
  weight := lv.2.weight
  value := sumWP (levelCounts G len lv.1.dmin lv.1.dmax) /
    sumW (levelCounts G len lv.1.dmin lv.1.dmax) * (2 ^ 28 : Nat)

/-- The levels at which something is known. -/
noncomputable def usedItems (B : Build) (G : Grams) (len : Nat)
    (lvs : List (Bt.BtLevel × BtLevel)) : List Item :=
  (lvs.filter fun lv => levelCounts G len lv.1.dmin lv.1.dmax ≠ []).map (levelItem B G len)

theorem usedItems_cons {lv : Bt.BtLevel × BtLevel} {lvs : List (Bt.BtLevel × BtLevel)}
    (h : levelCounts G len lv.1.dmin lv.1.dmax ≠ []) :
    usedItems B G len (lv :: lvs) = levelItem B G len lv :: usedItems B G len lvs := by
  rw [usedItems, List.filter_cons_of_pos (by simpa using h)]
  rfl

theorem foldl_levelStep (B : Build) (G : Grams) (len : Nat) (lvs : List (Bt.BtLevel × BtLevel))
    (x : Int × Int) : (((lvs.map Prod.fst).foldl (levelStep B G len) x).1 : ℝ) =
        x.1 + sum (usedItems B G len lvs) ∧
      (((lvs.map Prod.fst).foldl (levelStep B G len) x).2 : ℝ) =
        x.2 + total (usedItems B G len lvs) := by
  induction lvs generalizing x with
  | nil => simp [usedItems, sum, total]
  | cons lv lvs ih =>
    obtain ⟨h1, h2⟩ := ih (levelStep B G len x lv.1)
    rw [List.map_cons, List.foldl_cons, h1, h2, levelStep]
    by_cases hnil : levelCounts G len lv.1.dmin lv.1.dmax = []
    · rw [if_pos ((levelTerms_eq_nil B G len lv.1).2 hnil)]
      simp [usedItems, hnil]
    · rw [if_neg (mt (levelTerms_eq_nil B G len lv.1).1 hnil), usedItems_cons hnil, sum_cons,
        total_cons, levelItem]
      push_cast
      exact ⟨by ring, by ring⟩

theorem foldl_gramLevel (B : Build) (G : Grams) (len : Nat) {lvs : List (Bt.BtLevel × BtLevel)}
    (hlvs : ∀ lv ∈ lvs, SameLevel lv) (s : ℝ × ℝ) :
    ((lvs.map Prod.snd).foldl (gramLevel G len) s).1 * 2 ^ 28 =
        s.1 * 2 ^ 28 + meantSum (usedItems B G len lvs) ∧
      ((lvs.map Prod.snd).foldl (gramLevel G len) s).2 =
        s.2 + meantTotal (usedItems B G len lvs) := by
  induction lvs generalizing s with
  | nil => simp [usedItems, meantSum, meantTotal]
  | cons lv lvs ih =>
    have hsame := hlvs lv List.mem_cons_self
    obtain ⟨h1, h2⟩ := ih (fun lv hlv => hlvs lv (List.mem_cons_of_mem _ hlv))
      (gramLevel G len s lv.2)
    rw [List.map_cons, List.foldl_cons, h1, h2, gramLevel, hsame.dmin, hsame.dmax]
    by_cases hnil : levelCounts G len lv.1.dmin lv.1.dmax = []
    · simp [usedItems, hnil]
    · rw [if_neg hnil, usedItems_cons hnil, meantSum_cons, meantTotal_cons, levelItem,
        Nat.cast_pow, Nat.cast_ofNat]
      exact ⟨by ring, by ring⟩

theorem sumWP_div_le {xs : List (Nat × UInt32 × UInt32)} (hxs : xs ≠ [])
    (h : ∀ x ∈ xs, CountsLe x.2.1 x.2.2) : 0 ≤ sumWP xs / sumW xs ∧ sumWP xs / sumW xs ≤ 1 := by
  have hpos := sumW_pos hxs
  constructor
  · apply div_nonneg _ hpos.le
    apply List.sum_nonneg
    intro y hy
    obtain ⟨x, hx, rfl⟩ := List.mem_map.1 hy
    exact mul_nonneg (predictW_pos _ _).le (predictP_mem (h x hx)).1
  · rw [div_le_one hpos]
    apply List.sum_le_sum
    intro x hx
    exact mul_le_of_le_one_right (predictW_pos _ _).le (predictP_mem (h x hx)).2

theorem usedItems_within {lvs : List (Bt.BtLevel × BtLevel)} (hlvs : ∀ lv ∈ lvs, SameLevel lv)
    (hG : GramsLe G) : ∀ t ∈ usedItems B G len lvs,
      t.Within 256 (501 / 500) 0 (levelFactor B) 18 (2 ^ 28) := by
  intro t ht
  obtain ⟨lv, hlv, rfl⟩ := List.mem_map.1 ht
  obtain ⟨hmem, hused⟩ := List.mem_filter.1 hlv
  have hne : levelCounts G len lv.1.dmin lv.1.dmax ≠ [] := by simpa using hused
  have hsame := hlvs lv hmem
  have hcounts : ∀ x ∈ levelCounts G len lv.1.dmin lv.1.dmax, CountsLe x.2.1 x.2.2 :=
    fun x hx => hG x.1 x.2 (mem_levelCounts hx).2
  obtain ⟨h0, h1⟩ := sumWP_div_le hne hcounts
  obtain ⟨hmean, hup, hdown⟩ := termsMean_near (B := B) hsame.mem hG hne rfl
  simp only [levelItem, Nat.cast_pow, Nat.cast_ofNat]
  refine ⟨?_, ?_, ?_, ?_, ?_, ?_, ?_, hup, hdown⟩ <;> dsimp only
  · positivity
  · exact_mod_cast hmean
  · exact_mod_cast hsame.weight_pos.le
  · positivity
  · exact mul_le_of_le_one_left (by positivity) h1
  · exact hsame.wint_le
  · exact hsame.le_wint

/-- What a probability may be changed by. -/
noncomputable def probFactor (B : Build) : ℝ := confStep B ^ 40 * (1007 / 1000)

theorem levelFactor_le (B : Build) :
    501 / 500 * (501 / 500) * levelFactor B ≤ probFactor B := by
  have hstep := one_le_confStep B
  have hpow : (0 : ℝ) < confStep B ^ 40 := by positivity
  have heq : 501 / 500 * (501 / 500) * levelFactor B = confStep B ^ 40 *
      (501 / 500 * (501 / 500) * ((1 + 92 / 2 ^ 16) * (1 + 92 / 2 ^ 16) * (1 + 1 / 2 ^ 24))) := by
    rw [levelFactor_eq, weightFactor_eq]
    ring
  rw [heq, probFactor]
  gcongr
  norm_num

theorem one_le_probFactor (B : Build) : 1 ≤ probFactor B := by
  have hpow : 1 ≤ confStep B ^ 40 := one_le_pow₀ (one_le_confStep B)
  rw [probFactor]
  linarith

theorem usedItems_total_pos {lvs : List (Bt.BtLevel × BtLevel)} (hlvs : ∀ lv ∈ lvs, SameLevel lv)
    (hne : usedItems B G len lvs ≠ []) : 0 < total (usedItems B G len lvs) := by
  apply List.sum_pos
  · intro w hw
    obtain ⟨t, ht, rfl⟩ := List.mem_map.1 hw
    obtain ⟨lv, hlv, rfl⟩ := List.mem_map.1 ht
    have hsame := hlvs lv (List.mem_filter.1 hlv).1
    have hpos : (0 : ℝ) < lv.2.weight := by exact_mod_cast hsame.weight_pos
    have hle := hsame.le_wint
    dsimp only [levelItem]
    linarith
  · simpa using hne

theorem levels_near (B : Build) (hG : GramsLe G) :
    let s := Bt.levels.foldl (levelStep B G len) (0, 0)
    let t := levels.foldl (gramLevel G len) (0, 0)
    s.2 = 0 ∧ t.2 = 0 ∨ 0 < s.2 ∧ 0 < t.2 ∧
      ((s.1 / s.2 : Int) : ℝ) ≤ probFactor B * (2 ^ 28 * (t.1 / t.2)) ∧
      2 ^ 28 * (t.1 / t.2) ≤ probFactor B * ((s.1 / s.2 : Int) + 19) := by
  intro s t
  have hs : s = ((Bt.levels.zip levels).map Prod.fst).foldl (levelStep B G len) (0, 0) := rfl
  have ht : t = ((Bt.levels.zip levels).map Prod.snd).foldl (gramLevel G len) (0, 0) := rfl
  obtain ⟨hs1, hs2⟩ := foldl_levelStep B G len (Bt.levels.zip levels) (0, 0)
  obtain ⟨ht1, ht2⟩ := foldl_gramLevel B G len sameLevels (0, 0)
  rw [← hs] at hs1 hs2
  rw [← ht] at ht1 ht2
  simp only [Int.cast_zero, zero_add, zero_mul] at hs1 hs2 ht1 ht2
  by_cases hnil : usedItems B G len (Bt.levels.zip levels) = []
  · rw [hnil] at hs2 ht2
    exact .inl ⟨Int.cast_eq_zero.1 hs2, ht2⟩
  · have hpos := usedItems_total_pos sameLevels hnil
    have hsums := sumsWithin (by norm_num) le_rfl (by norm_num)
      (@usedItems_within B G len _ sameLevels hG)
    have hlevel : 0 < levelFactor B := by
      have hwf := weightFactor_pos B
      unfold levelFactor
      positivity
    have hmeant := hsums.meantTotal_pos (by norm_num) (by norm_num) hpos
    have hup := hsums.mean_le (by norm_num) (by norm_num) hlevel.le le_rfl hpos le_rfl
    have hdown := hsums.le_mean (by norm_num) (by norm_num) le_rfl (by norm_num) hpos le_rfl
    have hmean : meantSum (usedItems B G len (Bt.levels.zip levels)) /
        meantTotal (usedItems B G len (Bt.levels.zip levels)) = 2 ^ 28 * (t.1 / t.2) := by
      rw [← ht1, ← ht2]
      ring
    rw [hmean, ← hs1, ← hs2] at hup hdown
    rw [← hs2] at hpos
    rw [← ht2] at hmeant
    have hpos' : 0 < s.2 := by exact_mod_cast hpos
    have hT : 0 ≤ 2 ^ 28 * (t.1 / t.2) := by
      rw [← hmean]
      exact div_nonneg hsums.meantSum_nonneg (ht2 ▸ hmeant.le)
    have hs0 : 0 ≤ s.1 := by
      have h0 := hsums.sum_nonneg
      rw [← hs1] at h0
      exact_mod_cast h0
    obtain ⟨hfloor, hfloor'⟩ := ediv_near s.1 hpos'
    have hquot : (0 : ℝ) ≤ (s.1 / s.2 : Int) := by exact_mod_cast Int.ediv_nonneg hs0 hpos'.le
    have hfactor := levelFactor_le B
    refine .inr ⟨hpos', hmeant, ?_, ?_⟩
    · calc ((s.1 / s.2 : Int) : ℝ) ≤ s.1 / s.2 := hfloor
        _ ≤ 501 / 500 * (501 / 500) * levelFactor B * (2 ^ 28 * (t.1 / t.2)) := by
          simpa using hup
        _ ≤ probFactor B * (2 ^ 28 * (t.1 / t.2)) := mul_le_mul_of_nonneg_right hfactor hT
    · calc 2 ^ 28 * (t.1 / t.2)
          ≤ 501 / 500 * (501 / 500) * levelFactor B * (s.1 / s.2 + 18) := by
            simpa [mul_assoc] using hdown
        _ ≤ 501 / 500 * (501 / 500) * levelFactor B * ((s.1 / s.2 : Int) + 19) := by
          apply mul_le_mul_of_nonneg_left _ (by positivity)
          linarith
        _ ≤ probFactor B * ((s.1 / s.2 : Int) + 19) :=
          mul_le_mul_of_nonneg_right hfactor (by linarith)

theorem clamp_near {Φ y : ℝ} {x : Int} (hΦ : 1 ≤ Φ) (hup : (x : ℝ) ≤ Φ * (2 ^ 28 * y))
    (hdown : 2 ^ 28 * y ≤ Φ * (x + 19)) :
    ((min (max x 1) pscale : Int) : ℝ) ≤ Φ * (2 ^ 28 * min (max y (1 / 10 ^ 12)) 1) + 1 ∧
      2 ^ 28 * min (max y (1 / 10 ^ 12)) 1 ≤ Φ * ((min (max x 1) pscale : Int) + 19) := by
  have hcast : ((min (max x 1) pscale : Int) : ℝ) = min (max (x : ℝ) 1) (2 ^ 28) := by
    rw [pscale]
    norm_num
  have hΦ0 : 0 ≤ Φ := zero_le_one.trans hΦ
  rw [hcast]
  constructor
  · rcases le_total y 1 with hy | hy
    · have hle : y ≤ min (max y (1 / 10 ^ 12)) 1 := le_min (le_max_left _ _) hy
      have hpos : 0 ≤ min (max y (1 / 10 ^ 12)) 1 :=
        le_min ((by norm_num : (0 : ℝ) ≤ 1 / 10 ^ 12).trans (le_max_right _ _)) zero_le_one
      have hΦle : Φ * (2 ^ 28 * y) ≤ Φ * (2 ^ 28 * min (max y (1 / 10 ^ 12)) 1) := by gcongr
      have hΦpos : 0 ≤ Φ * (2 ^ 28 * min (max y (1 / 10 ^ 12)) 1) := by positivity
      exact (min_le_left _ _).trans (max_le (by linarith) (by linarith))
    · rw [min_eq_right (hy.trans (le_max_left _ _))]
      refine (min_le_right _ _).trans ?_
      linarith
  · rcases le_total (x : ℝ) (2 ^ 28) with hx | hx
    · have hle : (x : ℝ) ≤ min (max (x : ℝ) 1) (2 ^ 28) := le_min (le_max_left _ _) hx
      have hone : (1 : ℝ) ≤ min (max (x : ℝ) 1) (2 ^ 28) :=
        le_min (le_max_right _ _) (by norm_num)
      have hΦle : Φ * (x + 19) ≤ Φ * (min (max (x : ℝ) 1) (2 ^ 28) + 19) := by gcongr
      have hΦone : 1 * 20 ≤ Φ * (min (max (x : ℝ) 1) (2 ^ 28) + 19) :=
        mul_le_mul hΦ (by linarith) (by norm_num) hΦ0
      rcases le_total y (1 / 10 ^ 12) with hy | hy
      · rw [max_eq_right hy, min_eq_left (by norm_num)]
        exact le_trans (by norm_num) hΦone
      · rw [max_eq_left hy]
        have hmin := min_le_left y 1
        linarith
    · rw [min_eq_right (hx.trans (le_max_left _ _))]
      have hmin := min_le_right (max y (1 / 10 ^ 12)) 1
      linarith

theorem gramProb_near (B : Build) {G : Grams} (hG : GramsLe G) {len : Nat} (hlen : len ≠ 0) :
    (gramProb B G len : ℝ) ≤ probFactor B * (2 ^ 28 * gramPredict G len) + 1 ∧
      2 ^ 28 * gramPredict G len ≤ probFactor B * (gramProb B G len + 19) := by
  have hlevels := @levels_near G len B hG
  have hone := one_le_probFactor B
  dsimp only at hlevels
  rw [gramProb, gramPredict, if_neg hlen]
  dsimp only
  generalize Bt.levels.foldl (levelStep B G len) (0, 0) = s at *
  generalize levels.foldl (gramLevel G len) (0, 0) = t at *
  rcases hlevels with ⟨hs, ht⟩ | ⟨hs, ht, hup, hdown⟩
  · rw [gramMean, if_neg (by omega), if_pos ht.le]
    norm_num [pscale]
    constructor
    · linarith
    · linarith
  · rw [gramMean, if_pos hs, if_neg (not_le.2 ht)]
    exact clamp_near hone hup hdown

end Levels

section Trained

variable {us : List (List UInt8 × UInt8)}

theorem logGrams_le (hus : us.length < 2 ^ 31) (w : Window) (b : UInt8) :
    GramsLe (logGrams us w b) := by
  intro n x hx
  have hle : us.count (w.last n, b) ≤ (us.map Prod.fst).count (w.last n) :=
    List.count_le_count_map (l := us) (f := Prod.fst) (x := (w.last n, b))
  have htotal : (us.map Prod.fst).count (w.last n) < 2 ^ 31 :=
    (List.count_le_length.trans (List.length_map ..).le).trans_lt hus
  unfold logGrams lookup at hx
  generalize us.count (w.last n, b) = f at *
  generalize (us.map Prod.fst).count (w.last n) = t at *
  split_ifs at hx with hzero
  obtain rfl := Option.some.inj hx
  have ht : (UInt32.ofNat t).toNat = t :=
    UInt32.toNat_ofNat_of_lt' (htotal.trans (by norm_num))
  have hf : (UInt32.ofNat f).toNat = f :=
    UInt32.toNat_ofNat_of_lt' ((hle.trans_lt htotal).trans (by norm_num))
  have hadd : spread (UInt32.ofNat t) = t + 256 := by
    rw [spread, UInt32.toNat_add, ht]
    exact Nat.mod_eq_of_lt (by change t + 256 < 2 ^ 32; omega)
  refine ⟨?_, ?_, ?_⟩
  · rw [ht]
    refine Nat.pos_of_ne_zero fun h0 => hzero ?_
    rw [h0]
    rfl
  · rw [hadd]
    omega
  · rw [ht, hf]
    exact hle

/-- The probabilities of `btv3.c` after training, beside those of `predict_byte`. -/
theorem Counted.probs_near {B : Build} {g : Bt.Globals} (h : Counted B us g)
    (hus : us.length < 2 ^ 31) (w : Window) : ∃ ps, probs B true (g.reader B w) = .ok ps ∧
      ∀ b : UInt8, ((ps.getD b.toNat 0 : Int) : ℝ) ≤
          probFactor B * (2 ^ 28 * gramPredict (logGrams us w b) w.bytes.length) + 1 ∧
        2 ^ 28 * gramPredict (logGrams us w b) w.bytes.length ≤
          probFactor B * ((ps.getD b.toNat 0 : Int) + 19) := by
  obtain ⟨ps, hps, -⟩ := bind_eq_ok.1 (h.table hus w).1
  refine ⟨ps, hps, fun b => ?_⟩
  have hint : us.toFinset.card ≤ 2 ^ 31 := (List.toFinset_card_le us).trans hus.le
  have hone := one_le_probFactor B
  have hformula : ps = gramProbs B (logGrams us w) w.bytes.length :=
    h.readerGrams_eq hint w ▸ probs_eq hps
  rw [hformula, gramProbs]
  split_ifs with hempty
  · rw [getD_map_allBytes, gramPredict, if_pos hempty]
    norm_num [pscale]
    constructor <;> linarith
  · rw [getD_map_allBytes]
    exact gramProb_near B (logGrams_le hus w b) hempty

/-- After the same training `btv3.c` has for every byte the probability that `predict_byte` has,
up to a factor that the steps of its confidences account for, and to 19 units. -/
theorem probs_predictByte (B : Build) {s : List UInt8}
    (hpairs : (Ngram.log btMaxDepth s).toFinset.card ≤ btPool)
    (hctxs : ((Ngram.log btMaxDepth s).map Prod.fst).toFinset.card ≤ ctxPool)
    (hroom : RoomFor B (Ngram.log btMaxDepth s)) (hs : btMaxDepth * s.length < 2 ^ 31)
    (ctxs : Nat → CtxEntry) (pool : Nat → Bt.BtEntry) (v3Ctxs : Nat → Bt.CtxEntry) :
    ∃ g0 g3 ps, btV4TrainAll s (btV4Init ctxs) = .ok g0 ∧
      btV3TrainAll B (fun _ _ => .succeeds) s (btV3Init B pool v3Ctxs) = .ok g3 ∧
      probs B true (g3.reader B g3.window) = .ok ps ∧
      ∀ b : UInt8, ∃ P : ℝ, predictByte g0 b = .ok P ∧
        ((ps.getD b.toNat 0 : Int) : ℝ) ≤
          (1 + 128 / B.pres) ^ 40 * (1007 / 1000) * (2 ^ 28 * P) + 1 ∧
        2 ^ 28 * P ≤
          (1 + 128 / B.pres) ^ 40 * (1007 / 1000) * (((ps.getD b.toNat 0 : Int) : ℝ) + 19) := by
  have hus : (Ngram.log btMaxDepth s).length < 2 ^ 31 := (Ngram.log_length_le _ _).trans_lt hs
  obtain ⟨g0, hrun0, h0, hw0⟩ := btV4TrainAll_represents ctxs s
  obtain ⟨g3, hrun3, h3, hw3⟩ := trainAll_counted pool v3Ctxs hroom
    ((List.toFinset_card_le _).trans hus.le)
  rw [Tally.within_eq_all hpairs hctxs] at h0
  have hwindow : g0.window = g3.window := Window.eq_of_bytes (hw0.trans hw3.symm)
  obtain ⟨ps, hps, hnear⟩ := Counted.probs_near h3 hus g3.window
  refine ⟨g0, g3, ps, hrun0, hrun3, hps, fun b => ?_⟩
  have hcounts : ∀ n, predictCounts g0 n b =
      .ok (logGrams (Ngram.log btMaxDepth s) g0.window b n) := by
    intro n
    rw [← lookup_all]
    exact h0.predictCounts_eq g0.window n b
  refine ⟨_, predictByte_eq hcounts, ?_⟩
  rw [hwindow]
  exact hnear b

theorem probs_predictByte_aba : ∃ g0 g3 ps,
    btV4TrainAll [97, 98, 97] (btV4Init fun _ => ⟨fun _ => 7, 7, 7, 7, 7⟩) = .ok g0 ∧
      btV3TrainAll .plain (fun _ _ => .succeeds) [97, 98, 97]
        (btV3Init .plain (fun _ => blankBt) fun _ => blankCtx) = .ok g3 ∧
      probs .plain true (g3.reader .plain g3.window) = .ok ps ∧
      ∀ b : UInt8, ∃ P : ℝ, predictByte g0 b = .ok P ∧
        ((ps.getD b.toNat 0 : Int) : ℝ) ≤
          (1 + 128 / Build.plain.pres) ^ 40 * (1007 / 1000) * (2 ^ 28 * P) + 1 ∧
        2 ^ 28 * P ≤ (1 + 128 / Build.plain.pres) ^ 40 * (1007 / 1000) *
          (((ps.getD b.toNat 0 : Int) : ℝ) + 19) :=
  probs_predictByte .plain (by decide) (by decide) (.inl rfl) (by decide) _ _ _

end Trained

end Bcb.V0
