import Mathlib.Logic.Function.Iterate
import Mathlib.Tactic.Ring

/-! Registers that are shifted down and take a polynomial in where a one falls out: the
remainders of a reflected cyclic redundancy check. -/

namespace Bcb.Lib.ShiftRegister

variable {w m : Nat} {poly : BitVec w}

def step (poly x : BitVec w) : BitVec w := (x >>> 1) ^^^ (if x.getLsbD 0 then poly else 0)

/-- A symbol of `m` bits goes in at the low end. -/
def absorb (poly : BitVec w) (x : BitVec w) (b : BitVec m) : BitVec w :=
  (step poly)^[m] (x ^^^ b.setWidth w)

/-- The symbols as one word, the first of them lowest. -/
def pack (w : Nat) : List (BitVec m) → BitVec w
  | [] => 0
  | b :: l => b.setWidth w ^^^ pack w l <<< m

section Linear

@[simp]
theorem step_xor (poly x y : BitVec w) : step poly (x ^^^ y) = step poly x ^^^ step poly y := by
  unfold step
  rw [BitVec.ushiftRight_xor_distrib, BitVec.getLsbD_xor]
  cases x.getLsbD 0 <;> cases y.getLsbD 0
  · simp
  · simp [BitVec.xor_assoc]
  · simp [BitVec.xor_assoc, BitVec.xor_comm poly]
  · have hcancel : poly ^^^ (y >>> 1 ^^^ poly) = y >>> 1 := by
      rw [BitVec.xor_comm, BitVec.xor_assoc, BitVec.xor_self, BitVec.xor_zero]
    simp [BitVec.xor_assoc, hcancel]

/-- Where the polynomial has its highest bit, the register tells what fell out. -/
theorem step_eq_zero (hpoly : poly.msb = true) {x : BitVec w} (h : step poly x = 0) : x = 0 := by
  have hlow : x.getLsbD 0 = false := by
    by_contra hone
    rw [Bool.not_eq_false] at hone
    rw [step, if_pos hone] at h
    have hmsb := congrArg BitVec.msb h
    have hshift : (x >>> 1).msb = false := by simp [BitVec.msb_ushiftRight]
    rw [BitVec.msb_xor, hshift, hpoly, BitVec.ofNat_eq_ofNat, BitVec.msb_zero] at hmsb
    exact Bool.noConfusion hmsb
  have hhigh : x >>> 1 = 0 := by
    simpa [step, hlow] using h
  apply BitVec.eq_of_getLsbD_eq
  intro i _
  rw [BitVec.ofNat_eq_ofNat, BitVec.getLsbD_zero]
  cases i with
  | zero => exact hlow
  | succ i =>
    have hbit := congrArg (fun y => y.getLsbD i) hhigh
    simpa [Nat.add_comm] using hbit

theorem step_injective (hpoly : poly.msb = true) : Function.Injective (step poly) := by
  intro x y h
  have hzero : step poly (x ^^^ y) = 0 := by
    rw [step_xor, h, BitVec.xor_self]
    rfl
  exact BitVec.xor_eq_zero_iff.1 (step_eq_zero hpoly hzero)

@[simp] theorem iterate_xor (poly : BitVec w) (n : Nat) (x y : BitVec w) :
    (step poly)^[n] (x ^^^ y) = (step poly)^[n] x ^^^ (step poly)^[n] y := by
  induction n generalizing x y with
  | zero => rfl
  | succ n ih =>
    simp only [Function.iterate_succ_apply]
    rw [step_xor, ih]

theorem iterate_shiftLeft (poly : BitVec w) {n : Nat} {x : BitVec w} (h : x.toNat * 2 ^ n < 2 ^ w) :
    (step poly)^[n] (x <<< n) = x := by
  induction n with
  | zero => exact BitVec.shiftLeft_zero x
  | succ n ih =>
    have hn : x.toNat * 2 ^ n < 2 ^ w := by
      apply Nat.lt_of_le_of_lt _ h
      exact Nat.mul_le_mul_left _ (Nat.pow_le_pow_right (by decide) (Nat.le_succ n))
    have hstep : step poly (x <<< (n + 1)) = x <<< n := by
      have hlow : (x <<< (n + 1)).getLsbD 0 = false := by simp
      apply BitVec.eq_of_toNat_eq
      rw [step, hlow, if_neg Bool.false_ne_true, BitVec.ofNat_eq_ofNat, BitVec.xor_zero,
        BitVec.toNat_ushiftRight, BitVec.toNat_shiftLeft, BitVec.toNat_shiftLeft,
        Nat.shiftLeft_eq, Nat.shiftLeft_eq, Nat.mod_eq_of_lt h, Nat.mod_eq_of_lt hn,
        Nat.shiftRight_eq_div_pow, Nat.pow_succ, ← Nat.mul_assoc, Nat.pow_one]
      exact Nat.mul_div_cancel _ (by decide)
    rw [Function.iterate_succ_apply, hstep, ih hn]

end Linear

section Words

variable {l k pre post : List (BitVec m)}

theorem pack_lt (h : m * l.length ≤ w) : (pack w l).toNat < 2 ^ (m * l.length) := by
  induction l with
  | nil => exact Nat.one_pos
  | cons b l ih =>
    rw [List.length_cons, Nat.mul_succ] at h ⊢
    have hl := ih (by omega)
    rw [pack, BitVec.toNat_xor, BitVec.toNat_shiftLeft, Nat.shiftLeft_eq]
    apply Nat.xor_lt_two_pow
    · rw [BitVec.toNat_setWidth]
      apply Nat.lt_of_le_of_lt (Nat.mod_le _ _)
      exact Nat.lt_of_lt_of_le b.isLt (Nat.pow_le_pow_right (by decide) (Nat.le_add_left _ _))
    · rw [Nat.pow_add]
      apply Nat.lt_of_le_of_lt (Nat.mod_le _ _)
      exact Nat.mul_lt_mul_of_pos_right hl (Nat.two_pow_pos m)

theorem pack_room (h : m * l.length + m ≤ w) : (pack w l).toNat * 2 ^ m < 2 ^ w := by
  have hlt := pack_lt (Nat.le_trans (Nat.le_add_right _ _) h)
  calc (pack w l).toNat * 2 ^ m < 2 ^ (m * l.length) * 2 ^ m :=
        Nat.mul_lt_mul_of_pos_right hlt (Nat.two_pow_pos m)
    _ = 2 ^ (m * l.length + m) := (Nat.pow_add _ _ _).symm
    _ ≤ 2 ^ w := Nat.pow_le_pow_right (by decide) h

theorem foldl_absorb (poly x : BitVec w) (h : m * l.length ≤ w) :
    l.foldl (absorb poly) x = (step poly)^[m * l.length] (x ^^^ pack w l) := by
  induction l generalizing x with
  | nil =>
    rw [pack, BitVec.ofNat_eq_ofNat, BitVec.xor_zero]
    rfl
  | cons b l ih =>
    rw [List.length_cons, Nat.mul_succ] at h ⊢
    rw [List.foldl_cons, ih _ (by omega), absorb, pack, Function.iterate_add_apply,
      ← BitVec.xor_assoc, iterate_xor poly m (x ^^^ b.setWidth w),
      iterate_shiftLeft poly (pack_room h)]

theorem pack_injective (hlen : l.length = k.length) (h : m * l.length ≤ w)
    (heq : pack w l = pack w k) : l = k := by
  induction l generalizing k with
  | nil => exact (List.length_eq_zero_iff.1 hlen.symm).symm
  | cons b l ih =>
    cases k with
    | nil => cases hlen
    | cons c k =>
      rw [List.length_cons, List.length_cons, Nat.succ_inj] at hlen
      rw [List.length_cons, Nat.mul_succ] at h
      have hbit : ∀ i, ((pack w (b :: l)).getLsbD i) = ((pack w (c :: k)).getLsbD i) :=
        fun i => congrArg (fun x => x.getLsbD i) heq
      simp only [pack, BitVec.getLsbD_xor, BitVec.getLsbD_setWidth, BitVec.getLsbD_shiftLeft]
        at hbit
      have hb : b = c := by
        apply BitVec.eq_of_getLsbD_eq
        intro i hi
        have hi' := hbit i
        have hiw : i < w := by omega
        simpa [hi, hiw] using hi'
      have hl : pack w l = pack w k := by
        rw [pack, pack, hb, BitVec.xor_right_inj] at heq
        rw [← iterate_shiftLeft 0 (pack_room h), heq]
        exact iterate_shiftLeft 0 (pack_room (hlen ▸ h))
      rw [hb, ih hlen (by omega) hl]

theorem foldl_absorb_injective (hpoly : poly.msb = true) (l : List (BitVec m)) :
    Function.Injective fun x => l.foldl (absorb poly) x := by
  induction l with
  | nil => exact Function.injective_id
  | cons b l ih =>
    intro x y h
    have hb := (step_injective hpoly).iterate m (ih h)
    exact (BitVec.xor_left_inj _).1 hb

/-- Two runs that differ in no more symbols in a row than the register holds leave different
remainders. -/
theorem foldl_absorb_burst (hpoly : poly.msb = true) (hlen : l.length = k.length)
    (h : m * l.length ≤ w) (hne : l ≠ k) (x : BitVec w) :
    (pre ++ l ++ post).foldl (absorb poly) x ≠ (pre ++ k ++ post).foldl (absorb poly) x := by
  intro heq
  rw [List.foldl_append, List.foldl_append, List.foldl_append, List.foldl_append] at heq
  have hwords := foldl_absorb_injective hpoly post heq
  generalize pre.foldl (absorb poly) x = y at hwords
  rw [foldl_absorb _ _ h, foldl_absorb _ _ (hlen ▸ h), ← hlen] at hwords
  have hpack := (step_injective hpoly).iterate _ hwords
  exact hne (pack_injective hlen h ((BitVec.xor_right_inj _).1 hpack))

end Words

end Bcb.Lib.ShiftRegister
