import Mathlib.Data.List.GetD
import Mathlib.Tactic.Common

/-! A sequence kept in two buffers of `R` places, the record being filled and the one filled
before it.  Together they give back the item `R` places before the next one. -/

universe u

namespace Bcb.Lib.Lag

variable {α : Type u} {z b : α} {R i pos : Nat} {m l : List α} {prev cur prev' cur' : Nat → α}

/-- The item `R` places before place `i`, and `z` in the first record. -/
def before (z : α) (R : Nat) (m : List α) (i : Nat) : α := if R ≤ i then m.getD (i - R) z else z

theorem before_append (hR : 0 < R) (hi : i ≤ m.length) :
    before z R (m ++ l) i = before z R m i := by
  unfold before
  split_ifs with hle
  · exact List.getD_append _ _ _ _ (by omega)
  · rfl

/-- The buffers after the sequence `m`, with `pos` items in `cur`. -/
structure Holds (z : α) (R : Nat) (m : List α) (pos : Nat) (prev cur : Nat → α) : Prop where
  pos_eq : pos = m.length % R
  cur_eq : ∀ j < pos, cur j = m.getD (m.length - pos + j) z
  prev_eq : ∀ j < R, prev j = before z R m (m.length - pos + j)

namespace Holds

theorem nil (z : α) (R : Nat) (cur : Nat → α) : Holds z R [] 0 (fun _ => z) cur where
  pos_eq := (Nat.zero_mod R).symm
  cur_eq j hj := absurd hj (Nat.not_lt_zero j)
  prev_eq j hj := by
    rw [before, if_neg]
    simpa using hj

variable (h : Holds z R m pos prev cur)

include h

theorem pos_le : pos ≤ m.length := h.pos_eq ▸ Nat.mod_le _ _

theorem prev_pos (hR : 0 < R) : prev pos = before z R m m.length := by
  have hlt : pos < R := h.pos_eq ▸ Nat.mod_lt _ hR
  rw [h.prev_eq pos hlt, Nat.sub_add_cancel h.pos_le]

theorem cur_update {j : Nat} (hj : j < pos + 1) :
    Function.update cur pos b j = (m ++ [b]).getD (m.length - pos + j) z := by
  have hle := h.pos_le
  rcases Nat.lt_succ_iff_lt_or_eq.1 hj with hlt | rfl
  · rw [Function.update_of_ne (Nat.ne_of_lt hlt), h.cur_eq j hlt, List.getD_append _ _ _ _ (by omega)]
  · rw [Function.update_self, Nat.sub_add_cancel hle, List.getD_append_right _ _ _ _ (Nat.le_refl _),
      Nat.sub_self]
    rfl

theorem push (hpos : pos + 1 < R) (b : α) :
    Holds z R (m ++ [b]) (pos + 1) prev (Function.update cur pos b) := by
  have hbase : (m ++ [b]).length - (pos + 1) = m.length - pos := by
    rw [List.length_append, List.length_singleton]
    omega
  refine ⟨?_, fun j hj => ?_, fun j hj => ?_⟩
  · rw [List.length_append, List.length_singleton, ← Nat.mod_add_div m.length R, ← h.pos_eq,
      Nat.add_right_comm, Nat.add_mul_mod_self_left, Nat.mod_eq_of_lt hpos]
  · rw [hbase]
    exact h.cur_update hj
  · rw [hbase, h.prev_eq j hj]
    unfold before
    split_ifs with hle
    · exact (List.getD_append _ _ _ _ (by omega)).symm
    · rfl

theorem wrap (hpos : pos + 1 = R) (hprev : ∀ j < R, prev' j = Function.update cur pos b j) :
    Holds z R (m ++ [b]) 0 prev' cur' := by
  have hle := h.pos_le
  refine ⟨?_, fun j hj => absurd hj (Nat.not_lt_zero j), fun j hj => ?_⟩
  · rw [List.length_append, List.length_singleton, ← Nat.mod_add_div m.length R, ← h.pos_eq,
      Nat.add_right_comm, Nat.add_mul_mod_self_left, hpos, Nat.mod_self]
  · rw [hprev j hj, h.cur_update (by omega), before, List.length_append, List.length_singleton,
      if_pos (by omega)]
    congr 1
    omega

end Holds

end Bcb.Lib.Lag
