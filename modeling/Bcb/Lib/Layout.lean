import Mathlib.Data.List.Infix
import Mathlib.Order.Nat
import Mathlib.Tactic.Common

/-! Files of sections: each is written at its offset, what lies between is filled with a
default, and every section is found again where it was written. -/

namespace Bcb.Lib.Layout

variable {α : Type} {z : α} {f s : List α} {off n : Nat}

/-- `f`, filled up to an offset. -/
def padTo (z : α) (f : List α) (off : Nat) : List α := f ++ List.replicate (off - f.length) z

/-- A section written at an offset. -/
def put (z : α) (f : List α) (off : Nat) (s : List α) : List α := padTo z f off ++ s

def putAll (z : α) (f : List α) (l : List (Nat × List α)) : List α :=
  l.foldl (fun f x => put z f x.1 x.2) f

/-- `s` lies in `f` from an offset on. -/
def At (f : List α) (off : Nat) (s : List α) : Prop := ∀ i < s.length, f[off + i]? = s[i]?

@[simp] theorem padTo_length (h : f.length ≤ off) : (padTo z f off).length = off := by
  rw [padTo, List.length_append, List.length_replicate, Nat.add_sub_cancel' h]

@[simp] theorem put_length (h : f.length ≤ off) : (put z f off s).length = off + s.length := by
  rw [put, List.length_append, padTo_length h]

theorem put_at (h : f.length ≤ off) : At (put z f off s) off s := by
  intro i _
  rw [put, List.getElem?_append_right ((padTo_length h).trans_le (Nat.le_add_right off i)),
    padTo_length h, Nat.add_sub_cancel_left]

theorem prefix_put : f <+: put z f off s := by
  rw [put, padTo, List.append_assoc]
  exact List.prefix_append f _

theorem At.extend {g : List α} (h : At f off s) (hfg : f <+: g) : At g off s := by
  intro i hi
  have hlt : off + i < f.length := by
    by_contra hge
    have hnone := h i hi
    rw [List.getElem?_eq_none (not_lt.1 hge), List.getElem?_eq_getElem hi] at hnone
    cases hnone
  obtain ⟨t, rfl⟩ := hfg
  rw [List.getElem?_append_left hlt]
  exact h i hi

/-- Each section begins where those before have ended, or later. -/
def Fits : Nat → List (Nat × List α) → Prop
  | _, [] => True
  | n, (off, s) :: l => n ≤ off ∧ Fits (off + s.length) l

/-- Where the last section ends. -/
def ending : Nat → List (Nat × List α) → Nat
  | n, [] => n
  | _, (off, s) :: l => ending (off + s.length) l

theorem prefix_putAll {l : List (Nat × List α)} : f <+: putAll z f l := by
  induction l generalizing f with
  | nil => exact List.prefix_rfl
  | cons x l ih => exact prefix_put.trans ih

theorem putAll_length {l : List (Nat × List α)} (h : Fits f.length l) :
    (putAll z f l).length = ending f.length l := by
  induction l generalizing f with
  | nil => rfl
  | cons x l ih =>
    obtain ⟨off, s⟩ := x
    obtain ⟨hoff, hrest⟩ := h
    have hlen := put_length (z := z) (s := s) hoff
    rw [← hlen] at hrest
    exact (ih hrest).trans (by rw [hlen]; rfl)

theorem putAll_at {l : List (Nat × List α)} (h : Fits f.length l) {x : Nat × List α}
    (hx : x ∈ l) : At (putAll z f l) x.1 x.2 := by
  induction l generalizing f with
  | nil => cases hx
  | cons y l ih =>
    obtain ⟨off, s⟩ := y
    obtain ⟨hoff, hrest⟩ := h
    rcases List.mem_cons.1 hx with rfl | hx
    · exact (put_at hoff).extend prefix_putAll
    · rw [← put_length (z := z) (s := s) hoff] at hrest
      exact ih hrest hx

theorem ending_ge {l : List (Nat × List α)} (h : Fits n l) : n ≤ ending n l := by
  induction l generalizing n with
  | nil => exact le_rfl
  | cons x l ih =>
    obtain ⟨off, s⟩ := x
    exact (h.1.trans (Nat.le_add_right off s.length)).trans (ih h.2)

theorem mem_le_ending {l : List (Nat × List α)} (h : Fits n l) {x : Nat × List α} (hx : x ∈ l) :
    x.1 + x.2.length ≤ ending n l := by
  induction l generalizing n with
  | nil => cases hx
  | cons y l ih =>
    obtain ⟨off, s⟩ := y
    rcases List.mem_cons.1 hx with rfl | hx
    · exact ending_ge h.2
    · exact ih h.2 hx

section Records

variable {k m : Nat} {rec : Nat → List α}

theorem records_length (hrec : ∀ i < m, (rec i).length = k) :
    ((List.range m).flatMap rec).length = k * m := by
  induction m with
  | zero => simp
  | succ m ih =>
    rw [List.range_succ, List.flatMap_append, List.length_append,
      ih fun i hi => hrec i (Nat.lt_succ_of_lt hi), List.flatMap_singleton,
      hrec m (Nat.lt_succ_self m), Nat.mul_succ]

theorem At.record (hrec : ∀ i < m, (rec i).length = k)
    (h : At f off ((List.range m).flatMap rec)) {i : Nat} (hi : i < m) :
    At f (off + k * i) (rec i) := by
  obtain ⟨t, ht⟩ : ∃ t, (List.range m).flatMap rec =
      (List.range i).flatMap rec ++ (rec i ++ t) := by
    obtain ⟨d, rfl⟩ := Nat.exists_eq_add_of_lt hi
    rw [Nat.add_assoc, List.range_add, List.flatMap_append]
    refine ⟨(List.range d).flatMap fun j => rec (i + (j + 1)), ?_⟩
    rw [Nat.add_comm d 1, List.range_add]
    simp [List.flatMap_map, Nat.add_comm]
  have hpre : ((List.range i).flatMap rec).length = k * i :=
    records_length fun j hj => hrec j (Nat.lt_trans hj hi)
  intro j hj
  have hle : k * i + j < ((List.range m).flatMap rec).length := by
    rw [hrec i hi] at hj
    rw [records_length hrec]
    calc k * i + j < k * i + k := Nat.add_lt_add_left hj _
      _ = k * (i + 1) := (Nat.mul_succ k i).symm
      _ ≤ k * m := Nat.mul_le_mul_left k hi
  have hat := h (k * i + j) hle
  rw [← Nat.add_assoc] at hat
  rw [hat, ht, List.getElem?_append_right (hpre.trans_le (Nat.le_add_right _ _)), hpre,
    Nat.add_sub_cancel_left, List.getElem?_append_left hj]

end Records

end Bcb.Lib.Layout
