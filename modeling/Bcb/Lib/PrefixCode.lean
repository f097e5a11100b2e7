import Mathlib.InformationTheory.Coding.KraftMcMillan
import Mathlib.Order.Antichain

namespace Bcb.Lib

open InformationTheory

variable {α ι : Type} {S : Set (List α)}

/-- A sequence of such words is cut in one way. -/
theorem uniquelyDecodable_of_antichain (h : IsAntichain (· <+: ·) S) (hnil : [] ∉ S) :
    UniquelyDecodable S := by
  intro L1
  induction L1 with
  | nil =>
    intro L2 _ h2 heq
    cases L2 with
    | nil => rfl
    | cons w L2 =>
      have hw : w = [] := (List.append_eq_nil_iff.1 heq.symm).1
      exact absurd (hw ▸ h2 w List.mem_cons_self) hnil
  | cons v L1 ih =>
    intro L2 h1 h2 heq
    have hv := h1 v List.mem_cons_self
    cases L2 with
    | nil =>
      have hv0 : v = [] := (List.append_eq_nil_iff.1 heq).1
      exact absurd (hv0 ▸ hv) hnil
    | cons w L2 =>
      have hw := h2 w List.mem_cons_self
      rw [List.flatten_cons, List.flatten_cons] at heq
      obtain rfl : v = w := by
        have hbegin : v <+: w ++ L2.flatten := heq ▸ List.prefix_append v L1.flatten
        rcases List.prefix_or_prefix_of_prefix hbegin (List.prefix_append w L2.flatten) with
          hvw | hwv
        · exact h.eq hv hw hvw
        · exact (h.eq hw hv hwv).symm
      rw [ih L2 (fun x hx => h1 x (List.mem_cons_of_mem v hx))
        (fun x hx => h2 x (List.mem_cons_of_mem v hx)) (List.append_cancel_left heq)]

variable [Fintype α] [Nonempty α] [Fintype ι] {f : ι → List α}

/-- Kraft's inequality, for a word each. -/
theorem sum_length_le_one (hbegin : ∀ i j, f i <+: f j → i = j) (hne : ∀ i, f i ≠ []) :
    ∑ i, (1 / Fintype.card α : ℝ) ^ (f i).length ≤ 1 := by
  classical
  have hinj : Function.Injective f := fun i j hij => hbegin i j (hij ▸ List.prefix_refl _)
  have hcode : UniquelyDecodable (Finset.univ.image f : Set (List α)) := by
    rw [Finset.coe_image, Finset.coe_univ, Set.image_univ]
    apply uniquelyDecodable_of_antichain
    · rintro _ ⟨i, rfl⟩ _ ⟨j, rfl⟩ hij hle
      exact hij (congrArg f (hbegin i j hle))
    · rintro ⟨i, hi⟩
      exact hne i hi
  have hkraft := kraft_mcmillan_inequality hcode
  rwa [Finset.sum_image fun i _ j _ hij => hinj hij] at hkraft

theorem exists_long (hbegin : ∀ i j, f i <+: f j → i = j) (hne : ∀ i, f i ≠ []) {n : Nat}
    (hcard : Fintype.card α ^ n = Fintype.card ι) (hα : 1 < Fintype.card α) :
    ∃ i, n ≤ (f i).length := by
  by_contra! hshort
  have hsum := sum_length_le_one hbegin hne
  have hpos : (0 : ℝ) < Fintype.card α := by exact_mod_cast zero_lt_one.trans hα
  have hone : (1 : ℝ) < Fintype.card α := by exact_mod_cast hα
  cases n with
  | zero =>
    obtain ⟨i⟩ : Nonempty ι := Fintype.card_pos_iff.1 (hcard ▸ Nat.one_pos)
    exact Nat.not_lt_zero _ (hshort i)
  | succ n =>
    have hle : ∀ i, (1 / Fintype.card α : ℝ) ^ n ≤ (1 / Fintype.card α : ℝ) ^ (f i).length :=
      fun i => pow_le_pow_of_le_one (by positivity) ((div_le_one hpos).2 hone.le)
        (Nat.le_of_lt_succ (hshort i))
    have hall : (Fintype.card α : ℝ) ≤ ∑ i, (1 / Fintype.card α : ℝ) ^ (f i).length := by
      calc (Fintype.card α : ℝ) = Fintype.card ι * (1 / Fintype.card α : ℝ) ^ n := by
            rw [← hcard, Nat.cast_pow, one_div, inv_pow, pow_succ]
            field_simp
        _ = ∑ _i : ι, (1 / Fintype.card α : ℝ) ^ n := by
            rw [Finset.sum_const, Finset.card_univ, nsmul_eq_mul]
        _ ≤ _ := Finset.sum_le_sum fun i _ => hle i
    exact absurd (hone.trans_le (hall.trans hsum)) (lt_irrefl 1)

end Bcb.Lib
