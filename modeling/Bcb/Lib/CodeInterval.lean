import Bcb.Lib.BitSeq
import Mathlib.Data.Set.Basic
import Mathlib.Logic.Function.Iterate

/-! The abstract side of binary interval coding: an interval of code points at a
scale stands for the set of bit sequences whose prefix of that length falls in
it.  Doubling an interval leaves the set alone, narrowing one shrinks it. -/

namespace Bcb.Lib

structure CodeInterval where
  scale : Nat
  lo : Nat
  hi : Nat

namespace CodeInterval

def seqs (I : CodeInterval) : Set BitSeq :=
  {B | I.lo ≤ B.prefixVal I.scale ∧ B.prefixVal I.scale ≤ I.hi}

def double (I : CodeInterval) : CodeInterval := ⟨I.scale + 1, 2 * I.lo, 2 * I.hi + 1⟩

structure Narrows (I J : CodeInterval) : Prop where
  scale : J.scale = I.scale
  lo : I.lo ≤ J.lo
  hi : J.hi ≤ I.hi

@[simp] theorem seqs_double (I : CodeInterval) : I.double.seqs = I.seqs := by
  ext B
  have hb := Bool.toNat_lt (B I.scale)
  simp only [seqs, double, Set.mem_ofPred_eq, BitSeq.prefixVal_succ]
  omega

theorem Narrows.seqs_subset {I J : CodeInterval} (h : Narrows I J) : J.seqs ⊆ I.seqs := by
  rintro B ⟨hlo, hhi⟩
  rw [h.scale] at hlo hhi
  exact ⟨h.lo.trans hlo, hhi.trans h.hi⟩

def width (I : CodeInterval) : Nat := I.hi + 1 - I.lo

@[simp] theorem scale_double_iterate (j : Nat) (I : CodeInterval) :
    (double^[j] I).scale = I.scale + j := by
  induction j generalizing I with
  | zero => rfl
  | succ j ih =>
    rw [Function.iterate_succ_apply, ih]
    simp only [double]
    omega

@[simp] theorem width_double_iterate (j : Nat) (I : CodeInterval) :
    (double^[j] I).width = 2 ^ j * I.width := by
  induction j generalizing I with
  | zero => simp
  | succ j ih =>
    have hd : I.double.width = 2 * I.width := by
      simp only [width, double]
      omega
    rw [Function.iterate_succ_apply, ih, hd, pow_succ, Nat.mul_assoc]

@[simp]
theorem seqs_double_iterate (j : Nat) (I : CodeInterval) : (double^[j] I).seqs = I.seqs := by
  induction j generalizing I with
  | zero => rfl
  | succ j ih => rw [Function.iterate_succ_apply, ih, seqs_double]

theorem mem_seqs_of_startsWith {I : CodeInterval} {l : List Bool} {B : BitSeq} {k : Nat}
    (hB : B.StartsWith l) (hk : I.scale = l.length + k)
    (hlo : I.lo ≤ ofBits l * 2 ^ k) (hhi : ofBits l * 2 ^ k + 2 ^ k ≤ I.hi + 1) : B ∈ I.seqs := by
  have hv : B.prefixVal I.scale = ofBits l * 2 ^ k + (B.drop l.length).prefixVal k := by
    rw [hk, BitSeq.prefixVal_add, hB.prefixVal_eq]
  have hlt := (B.drop l.length).prefixVal_lt k
  constructor <;> rw [hv] <;> omega

end CodeInterval

/-- The symbol boundary `c` of a table of total `tot`, scaled to a range `r`, is
at most the offset `D` exactly when `c` is at most the target read back from `D`. -/
theorem scaled_le_iff {c tot r D : Nat} (ht : 0 < tot) (hr : 0 < r) :
    c ≤ ((D + 1) * tot - 1) / r ↔ r * c / tot ≤ D := by
  have hpos : 0 < (D + 1) * tot := Nat.mul_pos (Nat.succ_pos D) ht
  rw [Nat.le_div_iff_mul_le hr, ← Nat.lt_succ_iff (n := D), Nat.div_lt_iff_lt_mul ht,
    Nat.mul_comm c r, Nat.succ_eq_add_one]
  omega

theorem scaled_width {cl ch tot r : Nat} (ht : 0 < tot) (h : cl < ch) :
    r * cl / tot + r / tot ≤ r * ch / tot := by
  have hle : r * cl + r ≤ r * ch := by
    calc r * cl + r = r * (cl + 1) := by ring
      _ ≤ r * ch := Nat.mul_le_mul_left r h
  have hdiv := Nat.div_le_div_right (c := tot) hle
  have hsplit : r * cl / tot + r / tot ≤ (r * cl + r) / tot := by
    rw [Nat.le_div_iff_mul_le ht, Nat.add_mul]
    have h1 := Nat.div_mul_le_self (r * cl) tot
    have h2 := Nat.div_mul_le_self r tot
    omega
  omega

/-- Of an exact share of at least `m` code points a symbol keeps all but one in `m`. -/
theorem scaled_share {cl ch tot r m : Nat} (h : cl ≤ ch) (ht : 0 < tot)
    (hm : m * tot ≤ r * (ch - cl)) :
    (m - 1) * (r * (ch - cl)) ≤ m * ((r * ch / tot - r * cl / tot) * tot) := by
  cases m with
  | zero => simp
  | succ m =>
    have hhigh := Nat.lt_div_mul_add ht (a := r * ch)
    have hlow := Nat.div_mul_le_self (r * cl) tot
    have hle : r * cl ≤ r * ch := Nat.mul_le_mul_left r h
    have hshare : r * (ch - cl) ≤ (r * ch / tot - r * cl / tot) * tot + tot := by
      rw [Nat.mul_sub, Nat.sub_mul]
      omega
    have hmul := Nat.mul_le_mul_left (m + 1) hshare
    rw [Nat.mul_add] at hmul
    have hsplit : (m + 1) * (r * (ch - cl)) = m * (r * (ch - cl)) + r * (ch - cl) := by ring
    rw [Nat.add_sub_cancel]
    omega

/-- To such a share the two divisions add at most one code point in `m`. -/
theorem share_scaled {cl ch tot r m : Nat} (ht : 0 < tot) (hm : m * tot ≤ r * (ch - cl)) :
    m * ((r * ch / tot - r * cl / tot) * tot) ≤ (m + 1) * (r * (ch - cl)) := by
  have hhigh := Nat.div_mul_le_self (r * ch) tot
  have hlow := Nat.lt_div_mul_add ht (a := r * cl)
  have hshare : (r * ch / tot - r * cl / tot) * tot ≤ r * (ch - cl) + tot := by
    rw [Nat.mul_sub, Nat.sub_mul]
    omega
  calc m * ((r * ch / tot - r * cl / tot) * tot) ≤ m * (r * (ch - cl) + tot) :=
        Nat.mul_le_mul_left m hshare
    _ = m * (r * (ch - cl)) + m * tot := Nat.mul_add _ _ _
    _ ≤ m * (r * (ch - cl)) + r * (ch - cl) := Nat.add_le_add_left hm _
    _ = (m + 1) * (r * (ch - cl)) := (Nat.succ_mul _ _).symm

end Bcb.Lib
