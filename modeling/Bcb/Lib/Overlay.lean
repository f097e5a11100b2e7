import Mathlib.Data.List.GetD
import Mathlib.Tactic.Common

namespace Bcb.Lib

variable {ι α : Type} {off len : ι → Nat} {cell cell' : ι → Nat → α} {base base' : Nat → α}
  {l : List ι} {s : ι} {i : Nat}

/-- The memory after the regions of a list have been laid over it. -/
def overlay (off len : ι → Nat) (cell : ι → Nat → α) (base : Nat → α) : List ι → Nat → α
  | [], i => base i
  | s :: l, i =>
    if off s ≤ i ∧ i < off s + len s then cell s (i - off s) else overlay off len cell base l i

/-- No two regions have a place in common. -/
def Apart (off len : ι → Nat) : Prop :=
  ∀ s t, s ≠ t → len s ≠ 0 → len t ≠ 0 → off s + len s ≤ off t ∨ off t + len t ≤ off s

theorem overlay_eq (h : Apart off len) (hs : s ∈ l) (hi : i < len s) :
    overlay off len cell base l (off s + i) = cell s i := by
  induction l with
  | nil => cases hs
  | cons t l ih =>
    rw [overlay]
    by_cases hst : s = t
    · subst hst
      rw [if_pos (by omega), Nat.add_sub_cancel_left]
    · have hout : ¬ (off t ≤ off s + i ∧ off s + i < off t + len t) := by
        have happart := h s t hst
        omega
      rw [if_neg hout, ih ((List.mem_cons.1 hs).resolve_left hst)]

theorem overlay_base (h : ∀ s ∈ l, i < off s ∨ off s + len s ≤ i) :
    overlay off len cell base l i = base i := by
  induction l with
  | nil => rfl
  | cons t l ih =>
    obtain ⟨ht, hl⟩ := List.forall_mem_cons.1 h
    rw [overlay, if_neg (by omega), ih hl]

theorem overlay_congr (hbase : base i = base' i)
    (h : ∀ s ∈ l, ∀ j < len s, off s + j = i → cell s j = cell' s j) :
    overlay off len cell base l i = overlay off len cell' base' l i := by
  induction l with
  | nil => exact hbase
  | cons t l ih =>
    obtain ⟨ht, hl⟩ := List.forall_mem_cons.1 h
    rw [overlay, overlay, ih hl]
    split_ifs with hin
    · exact ht (i - off t) (by omega) (by omega)
    · rfl

/-! ## Records -/

/-- The cells of records of one size. -/
def recordCell (size : Nat) (rec : Nat → List α) (d : α) (i : Nat) : α :=
  (rec (i / size)).getD (i % size) d

variable {size k j m : Nat} {rec rec' : Nat → List α} {d : α}

theorem recordCell_eq (hlen : (rec k).length = size) (hj : j < (rec k).length) :
    recordCell size rec d (size * k + j) = (rec k)[j] := by
  have hpos : 0 < size := by omega
  rw [recordCell, Nat.mul_add_div hpos, Nat.div_eq_of_lt (by omega), Nat.mul_add_mod,
    Nat.mod_eq_of_lt (by omega), Nat.add_zero, List.getD_eq_getElem _ _ hj]

/-- Lists that differ in one place at most. -/
def SameBut (j : Nat) (l l' : List α) : Prop := l.length = l'.length ∧ ∀ i ≠ j, l[i]? = l'[i]?

theorem SameBut.append_left {l l' : List α} (h : SameBut j l l') (pre : List α) :
    SameBut (pre.length + j) (pre ++ l) (pre ++ l') := by
  refine ⟨by rw [List.length_append, List.length_append, h.1], fun i hi => ?_⟩
  rw [List.getElem?_append, List.getElem?_append]
  split_ifs
  · rfl
  · exact h.2 _ (by omega)

theorem SameBut.append_right {l l' : List α} (h : SameBut j l l') (post : List α) :
    SameBut j (l ++ post) (l' ++ post) := by
  refine ⟨by rw [List.length_append, List.length_append, h.1], fun i hi => ?_⟩
  rw [List.getElem?_append, List.getElem?_append, h.1, h.2 i hi]

theorem recordCell_congr (hrec : ∀ k ≠ m, rec k = rec' k) (hm : SameBut j (rec m) (rec' m))
    (hi : i ≠ size * m + j) : recordCell size rec d i = recordCell size rec' d i := by
  unfold recordCell
  by_cases hk : i / size = m
  · have hne : i % size ≠ j := by
      rintro rfl
      exact hi (hk ▸ (Nat.div_add_mod i size).symm)
    rw [hk, List.getD_eq_getElem?_getD, List.getD_eq_getElem?_getD, hm.2 _ hne]
  · rw [hrec _ hk]

end Bcb.Lib
