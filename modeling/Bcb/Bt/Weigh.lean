import Bcb.Bt.Counts

/-! The weighted average of the terms of a byte: it is there exactly when the weighted sum
fits in 64 bits. -/

namespace Bcb.Bt

open Lib

variable {B : Build} {terms : List (Int × Int)} {m : Int}

/-- The sum of `w*p`, in unbounded integers. -/
def weightedSum (B : Build) (m : Int) (terms : List (Int × Int)) : Int :=
  (terms.map fun t => expWeight B (t.1 - m) * t.2).sum

/-- The sum of `w`. -/
def weightTotal (B : Build) (m : Int) (terms : List (Int × Int)) : Int :=
  (terms.map fun t => expWeight B (t.1 - m)).sum

@[simp] theorem weightedSum_cons (t : Int × Int) :
    weightedSum B m (t :: terms) = expWeight B (t.1 - m) * t.2 + weightedSum B m terms := by
  simp [weightedSum]

@[simp] theorem weightTotal_cons (t : Int × Int) :
    weightTotal B m (t :: terms) = expWeight B (t.1 - m) + weightTotal B m terms := by
  simp [weightTotal]

theorem TermOk.weight_nonneg {t : Int × Int} (h : TermOk t) : 0 ≤ expWeight B (t.1 - m) * t.2 :=
  Int.mul_nonneg (expWeight_nonneg B _) h.p_nonneg

theorem weightedSum_nonneg (h : ∀ t ∈ terms, TermOk t) : 0 ≤ weightedSum B m terms := by
  induction terms with
  | nil => exact le_rfl
  | cons t terms ih =>
    have hrest := ih fun t ht => h t (List.mem_cons_of_mem _ ht)
    have hhead := (h t List.mem_cons_self).weight_nonneg (B := B) (m := m)
    rw [weightedSum_cons]
    omega

theorem weightTotal_mem (terms : List (Int × Int)) :
    0 ≤ weightTotal B m terms ∧ weightTotal B m terms ≤ 2 ^ 28 * terms.length := by
  induction terms with
  | nil => simp [weightTotal]
  | cons t terms ih =>
    have h0 := expWeight_nonneg B (t.1 - m)
    have hle := expWeight_le B (t.1 - m)
    rw [weightTotal_cons, List.length_cons]
    push_cast
    omega

theorem weight_le_weightTotal {t : Int × Int} (ht : t ∈ terms) :
    expWeight B (t.1 - m) ≤ weightTotal B m terms := by
  induction terms with
  | nil => cases ht
  | cons t' terms ih =>
    rw [weightTotal_cons]
    rcases List.mem_cons.1 ht with rfl | ht
    · have hrest := (weightTotal_mem (B := B) (m := m) terms).1
      omega
    · have h0 := expWeight_nonneg B (t'.1 - m)
      have hle := ih ht
      omega

theorem i64_overflow {x : Int} (h : 2 ^ 63 ≤ x) : i64 x = .error .overflow := by
  rw [i64, if_neg (by omega)]
  rfl

theorem weighTerm_eq {t : Int × Int} (ht : TermOk t) (hm : m ≤ 2 ^ 25) (htm : t.1 ≤ m)
    {num den : Int} (hnum : 0 ≤ num) (hden : 0 ≤ den ∧ den + 2 ^ 28 < 2 ^ 63) :
    weighTerm B true m (num, den) t =
      if num + expWeight B (t.1 - m) * t.2 < 2 ^ 63 then
        .ok (num + expWeight B (t.1 - m) * t.2, den + expWeight B (t.1 - m))
      else .error .overflow := by
  have hl := ht.l_nonneg
  have hle := ht.l_le
  have hnorm : i64 (t.1 - m) = .ok (t.1 - m) := i64_ok (by omega) (by omega)
  have hw0 := expWeight_nonneg B (t.1 - m)
  have hwle := expWeight_le B (t.1 - m)
  have hwp := ht.weight_nonneg (B := B) (m := m)
  have hdenok : i64 (den + expWeight B (t.1 - m)) = .ok (den + expWeight B (t.1 - m)) :=
    i64_small (by omega) (by omega)
  simp only [weighTerm, hnorm, ok_bind,
    exp2W_true B (by omega : t.1 - m ≤ 0) (by omega : -2 ^ 47 < t.1 - m)]
  by_cases hp : expWeight B (t.1 - m) * t.2 < 2 ^ 63
  · rw [i64_small hwp hp, ok_bind]
    split_ifs with hsum
    · rw [i64_small (by omega) hsum, ok_bind, hdenok]
      rfl
    · rw [i64_overflow (by omega)]
      rfl
  · rw [i64_overflow (by omega), if_neg (by omega)]
    rfl

theorem foldlM_weighTerm (hok : ∀ t ∈ terms, TermOk t) (hm : m ≤ 2 ^ 25)
    (hmax : ∀ t ∈ terms, t.1 ≤ m) {num den : Int} (hnum : 0 ≤ num)
    (hden : 0 ≤ den ∧ den + 2 ^ 28 * terms.length < 2 ^ 63)
    (hstart : num < 2 ^ 63) :
    terms.foldlM (weighTerm B true m) (num, den) =
      if num + weightedSum B m terms < 2 ^ 63 then
        .ok (num + weightedSum B m terms, den + weightTotal B m terms)
      else .error .overflow := by
  induction terms generalizing num den with
  | nil =>
    simp only [weightedSum, weightTotal, List.map_nil, List.sum_nil, Int.add_zero, if_pos hstart]
    rfl
  | cons t terms ih =>
    have hoks : ∀ t ∈ terms, TermOk t := fun t ht => hok t (List.mem_cons_of_mem _ ht)
    have ht := hok t List.mem_cons_self
    have hmaxs : ∀ t ∈ terms, t.1 ≤ m := fun t ht => hmax t (List.mem_cons_of_mem _ ht)
    have hw0 := expWeight_nonneg B (t.1 - m)
    have hwle := expWeight_le B (t.1 - m)
    have hwp := ht.weight_nonneg (B := B) (m := m)
    have hrest := weightedSum_nonneg (B := B) (m := m) hoks
    rw [List.length_cons] at hden
    push_cast at hden
    rw [List.foldlM_cons, weighTerm_eq ht hm (hmax t List.mem_cons_self) hnum (by omega),
      weightedSum_cons, weightTotal_cons,
      ← Int.add_assoc, ← Int.add_assoc]
    by_cases hstep : num + expWeight B (t.1 - m) * t.2 < 2 ^ 63
    · rw [if_pos hstep, ok_bind]
      exact ih hoks hmaxs (by omega) (by omega) hstep
    · rw [if_neg hstep, if_neg (by omega)]
      rfl

theorem le_maxL_of_acc (l : List (Int × Int)) (x : Int) :
    x ≤ l.foldl (fun m t => max m t.1) x ∧ ∀ t ∈ l, t.1 ≤ l.foldl (fun m t => max m t.1) x := by
  induction l generalizing x with
  | nil => exact ⟨le_rfl, fun t ht => (nomatch ht)⟩
  | cons t l ih =>
    obtain ⟨hacc, hmem⟩ := ih (max x t.1)
    rw [List.foldl_cons]
    refine ⟨(le_max_left x t.1).trans hacc, ?_⟩
    intro t' ht'
    rcases List.mem_cons.1 ht' with rfl | ht'
    · exact (le_max_right x t'.1).trans hacc
    · exact hmem t' ht'

theorem maxL_of_acc (l : List (Int × Int)) (x : Int) :
    l.foldl (fun m t => max m t.1) x = x ∨
      ∃ t ∈ l, l.foldl (fun m t => max m t.1) x = t.1 := by
  induction l generalizing x with
  | nil => exact .inl rfl
  | cons t l ih =>
    rw [List.foldl_cons]
    rcases ih (max x t.1) with heq | ⟨t', ht', heq⟩
    · rcases max_choice x t.1 with hmax | hmax
      · exact .inl (heq.trans hmax)
      · exact .inr ⟨t, List.mem_cons_self, heq.trans hmax⟩
    · exact .inr ⟨t', List.mem_cons_of_mem t ht', heq⟩

theorem maxL_mem (hok : ∀ t ∈ terms, TermOk t) (hne : terms ≠ []) :
    ∃ t ∈ terms, maxL terms = t.1 := by
  obtain ⟨t, ht⟩ := List.exists_mem_of_ne_nil terms hne
  have hle : t.1 ≤ terms.foldl (fun m t => max m t.1) (-2 ^ 63) :=
    (le_maxL_of_acc terms (-2 ^ 63)).2 t ht
  have h0 := (hok t ht).l_nonneg
  rcases maxL_of_acc terms (-2 ^ 63) with heq | h
  · omega
  · exact h

theorem le_maxL {t : Int × Int} (ht : t ∈ terms) : t.1 ≤ maxL terms :=
  (le_maxL_of_acc terms (-2 ^ 63)).2 t ht

theorem maxL_le (hok : ∀ t ∈ terms, TermOk t) (hne : terms ≠ []) : maxL terms ≤ 2 ^ 25 := by
  obtain ⟨t, ht, heq⟩ := maxL_mem hok hne
  rw [heq]
  exact (hok t ht).l_le

theorem weightTotal_ge (hok : ∀ t ∈ terms, TermOk t) (hne : terms ≠ []) :
    2 ^ 28 ≤ weightTotal B (maxL terms) terms := by
  obtain ⟨t, ht, heq⟩ := maxL_mem hok hne
  have hle := weight_le_weightTotal (B := B) (m := maxL terms) ht
  rwa [heq, Int.sub_self, expWeight_zero, ← heq] at hle

theorem weigh_ok (hok : ∀ t ∈ terms, TermOk t) (hne : terms ≠ [])
    (hlen : terms.length ≤ btMaxDepth) (hsum : weightedSum B (maxL terms) terms < 2 ^ 63) :
    ∃ v, weigh B true terms = .ok (some v) ∧ 0 ≤ v ∧ v < 2 ^ 35 := by
  simp only [btMaxDepth] at hlen
  have hnum := weightedSum_nonneg (B := B) (m := maxL terms) hok
  have hden := weightTotal_ge (B := B) hok hne
  have hfold := foldlM_weighTerm (B := B) hok (maxL_le hok hne) (fun _ => le_maxL)
    (le_refl 0)
    ⟨le_refl 0, by omega⟩ (by norm_num)
  rw [Int.zero_add, Int.zero_add, if_pos hsum] at hfold
  have hdiv : i64Div (weightedSum B (maxL terms) terms) (weightTotal B (maxL terms) terms) =
      .ok (weightedSum B (maxL terms) terms / weightTotal B (maxL terms) terms) :=
    i64Div_of_pos hnum (by omega)
  refine ⟨weightedSum B (maxL terms) terms / weightTotal B (maxL terms) terms, ?_, ?_, ?_⟩
  · simp only [weigh, hfold, ok_bind, hdiv,
      if_pos (by omega : (0 : Int) < weightTotal B (maxL terms) terms)]
    rfl
  · exact Int.ediv_nonneg hnum (by omega)
  · apply Int.ediv_lt_of_lt_mul (by omega)
    calc weightedSum B (maxL terms) terms < 2 ^ 35 * 2 ^ 28 := by omega
      _ ≤ 2 ^ 35 * weightTotal B (maxL terms) terms := by omega

theorem weigh_overflow (hok : ∀ t ∈ terms, TermOk t) (hne : terms ≠ [])
    (hlen : terms.length ≤ btMaxDepth) (hsum : 2 ^ 63 ≤ weightedSum B (maxL terms) terms) :
    weigh B true terms = .error .overflow := by
  simp only [btMaxDepth] at hlen
  have hfold := foldlM_weighTerm (B := B) hok (maxL_le hok hne) (fun _ => le_maxL)
    (le_refl 0)
    ⟨le_refl 0, by omega⟩ (by norm_num)
  rw [Int.zero_add, if_neg (by omega)] at hfold
  simp only [weigh, hfold]
  rfl

/-- Probabilities of which `k` make less than `2^35`: as many terms do not overflow. -/
theorem mul_weightedSum_le {k : Nat} (hp : ∀ t ∈ terms, 0 ≤ t.2 ∧ k * t.2 ≤ 2 ^ 35 - 1) :
    k * weightedSum B m terms ≤ terms.length * (2 ^ 28 * (2 ^ 35 - 1)) := by
  induction terms with
  | nil => simp [weightedSum]
  | cons t terms ih =>
    have hrest := ih fun t ht => hp t (List.mem_cons_of_mem _ ht)
    obtain ⟨h0, hle⟩ := hp t List.mem_cons_self
    have hmul : expWeight B (t.1 - m) * (k * t.2) ≤ 2 ^ 28 * (2 ^ 35 - 1) :=
      mul_le_mul (expWeight_le B _) hle (Int.mul_nonneg (by omega) h0) (by norm_num)
    rw [Int.mul_left_comm] at hmul
    rw [weightedSum_cons, List.length_cons, Int.mul_add]
    push_cast
    omega

theorem weight_le_weightedSum (hok : ∀ t ∈ terms, TermOk t) {t : Int × Int} (ht : t ∈ terms) :
    expWeight B (t.1 - m) * t.2 ≤ weightedSum B m terms := by
  induction terms with
  | nil => cases ht
  | cons t' terms ih =>
    have hoks : ∀ t ∈ terms, TermOk t := fun t ht => hok t (List.mem_cons_of_mem _ ht)
    rw [weightedSum_cons]
    rcases List.mem_cons.1 ht with rfl | ht
    · have hrest := weightedSum_nonneg (B := B) (m := m) hoks
      omega
    · have h0 := (hok t' List.mem_cons_self).weight_nonneg (B := B) (m := m)
      have hle := ih hoks ht
      omega

/-- Where all probabilities are from 128 on, that of the largest logarithm overflows. -/
theorem weightedSum_ge (hok : ∀ t ∈ terms, TermOk t) (hne : terms ≠ [])
    (hp : ∀ t ∈ terms, 2 ^ 35 ≤ t.2) : 2 ^ 63 ≤ weightedSum B (maxL terms) terms := by
  obtain ⟨t, ht, heq⟩ := maxL_mem hok hne
  have hle := weight_le_weightedSum (B := B) (m := maxL terms) hok ht
  have hge := hp t ht
  rw [heq, Int.sub_self, expWeight_zero, ← heq] at hle
  omega

theorem weightedSum_of_le (hp : ∀ t ∈ terms, 0 ≤ t.2 ∧ t.2 ≤ 2 ^ 28) :
    weightedSum B m terms ≤ 2 ^ 56 * terms.length := by
  induction terms with
  | nil => simp [weightedSum]
  | cons t terms ih =>
    have hrest := ih fun t ht => hp t (List.mem_cons_of_mem _ ht)
    obtain ⟨h0, hle⟩ := hp t List.mem_cons_self
    have hmul : expWeight B (t.1 - m) * t.2 ≤ 2 ^ 28 * 2 ^ 28 :=
      mul_le_mul (expWeight_le B _) hle h0 (by norm_num)
    rw [weightedSum_cons, List.length_cons]
    push_cast
    omega

end Bcb.Bt
