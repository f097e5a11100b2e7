import Mathlib.Data.Real.Basic
import Mathlib.Algebra.Order.BigOperators.Group.List
import Mathlib.Tactic.Linarith
import Mathlib.Tactic.Positivity
import Mathlib.Tactic.Ring
import Mathlib.Tactic.FieldSimp
import Mathlib.Tactic.GCongr

/-! Weighted means whose weights and values are known up to a factor.  The weights are meant
up to a common scale `c`, and a weight may have lost `a` and a value `d` to rounding. -/

namespace Bcb.Lib.WeightedMean

/-- A weight and a value as computed, beside the weight and the value that are meant. -/
structure Item where
  w : ℝ
  p : ℝ
  weight : ℝ
  value : ℝ

structure Item.Within (c ρ a F d top : ℝ) (t : Item) : Prop where
  w_nonneg : 0 ≤ t.w
  p_nonneg : 0 ≤ t.p
  weight_nonneg : 0 ≤ t.weight
  value_nonneg : 0 ≤ t.value
  value_le_top : t.value ≤ top
  w_le : t.w ≤ ρ * (c * t.weight)
  weight_le : c * t.weight ≤ ρ * (t.w + a)
  p_le : t.p ≤ F * t.value
  value_le : t.value ≤ F * (t.p + d)

def total (l : List Item) : ℝ := (l.map Item.w).sum

def sum (l : List Item) : ℝ := (l.map fun t => t.w * t.p).sum

def meantTotal (l : List Item) : ℝ := (l.map Item.weight).sum

def meantSum (l : List Item) : ℝ := (l.map fun t => t.weight * t.value).sum

@[simp] theorem total_cons (t : Item) (l : List Item) : total (t :: l) = t.w + total l := rfl

@[simp] theorem sum_cons (t : Item) (l : List Item) : sum (t :: l) = t.w * t.p + sum l := rfl

@[simp] theorem meantTotal_cons (t : Item) (l : List Item) :
    meantTotal (t :: l) = t.weight + meantTotal l := rfl

@[simp] theorem meantSum_cons (t : Item) (l : List Item) :
    meantSum (t :: l) = t.weight * t.value + meantSum l := rfl

variable {c ρ a F d top : ℝ} {l : List Item}

/-- What the sums of a list of such items keep. -/
structure SumsWithin (c ρ a F d top : ℝ) (l : List Item) : Prop where
  sum_nonneg : 0 ≤ sum l
  meantSum_nonneg : 0 ≤ meantSum l
  total_le : total l ≤ ρ * (c * meantTotal l)
  meantTotal_le : c * meantTotal l ≤ ρ * (total l + l.length * a)
  sum_le : sum l ≤ ρ * F * (c * meantSum l)
  meantSum_le : c * meantSum l ≤ ρ * (F * (sum l + d * total l) + l.length * (a * top))

theorem Item.Within.sums {t : Item} (hρ : 0 ≤ ρ) (ha : 0 ≤ a) (hc : 0 ≤ c)
    (h : t.Within c ρ a F d top) (hl : SumsWithin c ρ a F d top l) :
    SumsWithin c ρ a F d top (t :: l) where
  sum_nonneg := by
    rw [sum_cons]
    exact add_nonneg (mul_nonneg h.w_nonneg h.p_nonneg) hl.sum_nonneg
  meantSum_nonneg := by
    rw [meantSum_cons]
    exact add_nonneg (mul_nonneg h.weight_nonneg h.value_nonneg) hl.meantSum_nonneg
  total_le := by
    rw [total_cons, meantTotal_cons]
    linarith [h.w_le, hl.total_le]
  meantTotal_le := by
    rw [total_cons, meantTotal_cons, List.length_cons]
    push_cast
    linarith [h.weight_le, hl.meantTotal_le]
  sum_le := by
    have hwp : t.w * t.p ≤ ρ * (c * t.weight) * (F * t.value) :=
      mul_le_mul h.w_le h.p_le h.p_nonneg
        (mul_nonneg hρ (mul_nonneg hc h.weight_nonneg))
    rw [sum_cons, meantSum_cons]
    linarith [hl.sum_le]
  meantSum_le := by
    have hWQ : c * t.weight * t.value ≤ ρ * (t.w + a) * t.value :=
      mul_le_mul_of_nonneg_right h.weight_le h.value_nonneg
    have hwQ : ρ * t.w * t.value ≤ ρ * t.w * (F * (t.p + d)) :=
      mul_le_mul_of_nonneg_left h.value_le (mul_nonneg hρ h.w_nonneg)
    have haQ : ρ * a * t.value ≤ ρ * a * top :=
      mul_le_mul_of_nonneg_left h.value_le_top (mul_nonneg hρ ha)
    rw [sum_cons, meantSum_cons, total_cons, List.length_cons]
    push_cast
    linarith [hl.meantSum_le]

theorem sumsWithin (hρ : 0 ≤ ρ) (ha : 0 ≤ a) (hc : 0 ≤ c)
    (h : ∀ t ∈ l, t.Within c ρ a F d top) : SumsWithin c ρ a F d top l := by
  induction l with
  | nil => constructor <;> simp [sum, meantSum, total, meantTotal]
  | cons t l ih =>
    have hl := ih fun t ht => h t (List.mem_cons_of_mem _ ht)
    exact (h t List.mem_cons_self).sums hρ ha hc hl

section Mean

variable {S : ℝ}

theorem SumsWithin.meantTotal_pos (h : SumsWithin c ρ a F d top l) (hρ : 0 < ρ) (hc : 0 < c)
    (hl : 0 < total l) : 0 < meantTotal l := by
  by_contra hle
  have hmul : ρ * (c * meantTotal l) ≤ 0 :=
    mul_nonpos_of_nonneg_of_nonpos hρ.le (mul_nonpos_of_nonneg_of_nonpos hc.le (not_lt.1 hle))
  linarith [h.total_le]

theorem SumsWithin.mean_le (h : SumsWithin c ρ a F d top l) (hρ : 0 < ρ) (hc : 0 < c)
    (hF : 0 ≤ F) (ha : 0 ≤ a) (hS : 0 < S) (hl : S ≤ total l) :
    sum l / total l ≤ ρ * ρ * F * (1 + l.length * a / S) * (meantSum l / meantTotal l) := by
  have htot : 0 < total l := lt_of_lt_of_le hS hl
  have hmeant := h.meantTotal_pos hρ hc htot
  have hM : 0 ≤ meantSum l / meantTotal l := div_nonneg h.meantSum_nonneg hmeant.le
  have hMeq : meantSum l = meantSum l / meantTotal l * meantTotal l :=
    (div_mul_cancel₀ _ hmeant.ne').symm
  have hloss : total l + l.length * a ≤ (1 + l.length * a / S) * total l := by
    have hna : (0 : ℝ) ≤ l.length * a / S := by positivity
    have hmul := mul_le_mul_of_nonneg_left hl hna
    rw [div_mul_cancel₀ _ hS.ne'] at hmul
    linarith
  rw [div_le_iff₀ htot]
  calc sum l ≤ ρ * F * (c * meantSum l) := h.sum_le
    _ = ρ * F * (meantSum l / meantTotal l) * (c * meantTotal l) := by
      rw [hMeq]
      field_simp
    _ ≤ ρ * F * (meantSum l / meantTotal l) * (ρ * (total l + l.length * a)) := by
      exact mul_le_mul_of_nonneg_left h.meantTotal_le (by positivity)
    _ ≤ ρ * F * (meantSum l / meantTotal l) * (ρ * ((1 + l.length * a / S) * total l)) := by
      gcongr
    _ = ρ * ρ * F * (1 + l.length * a / S) * (meantSum l / meantTotal l) * total l := by ring

theorem SumsWithin.le_mean (h : SumsWithin c ρ a F d top l) (hρ : 0 < ρ) (hc : 0 < c)
    (ha : 0 ≤ a) (htop : 0 ≤ top) (hS : 0 < S) (hl : S ≤ total l) :
    meantSum l / meantTotal l ≤
      ρ * ρ * (F * (sum l / total l + d) + l.length * (a * top) / S) := by
  have htot : 0 < total l := lt_of_lt_of_le hS hl
  have hmeant := h.meantTotal_pos hρ hc htot
  have hmul : total l * (meantSum l / meantTotal l) ≤ ρ * (c * meantSum l) := by
    calc total l * (meantSum l / meantTotal l)
        ≤ ρ * (c * meantTotal l) * (meantSum l / meantTotal l) :=
          mul_le_mul_of_nonneg_right h.total_le (div_nonneg h.meantSum_nonneg hmeant.le)
      _ = ρ * (c * meantSum l) := by
        field_simp
  have hloss : l.length * (a * top) / total l ≤ l.length * (a * top) / S := by
    gcongr
  calc meantSum l / meantTotal l
      ≤ ρ * (c * meantSum l) / total l := (le_div_iff₀ htot).2 (by linarith)
    _ ≤ ρ * (ρ * (F * (sum l + d * total l) + l.length * (a * top))) / total l :=
      div_le_div_of_nonneg_right (mul_le_mul_of_nonneg_left h.meantSum_le hρ.le) htot.le
    _ = ρ * ρ * (F * (sum l / total l + d) + l.length * (a * top) / total l) := by
      field_simp
    _ ≤ ρ * ρ * (F * (sum l / total l + d) + l.length * (a * top) / S) := by gcongr

end Mean

end Bcb.Lib.WeightedMean
