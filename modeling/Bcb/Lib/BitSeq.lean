import Mathlib.Data.List.Induction
import Mathlib.Data.Nat.Bitwise
import Mathlib.Tactic.Ring
import Mathlib.Tactic.Linarith

namespace Bcb.Lib

/-- The low `n` bits of `v`. -/
def bitsOf : Nat → Nat → List Bool
  | 0, _ => []
  | n + 1, v => bitsOf n (v / 2) ++ [decide (v % 2 = 1)]

def ofBits (l : List Bool) : Nat := l.foldl (fun v b => 2 * v + b.toNat) 0

@[simp] theorem bitsOf_zero (v : Nat) : bitsOf 0 v = [] := rfl

@[simp] theorem bitsOf_length (n v : Nat) : (bitsOf n v).length = n := by
  induction n generalizing v with
  | zero => rfl
  | succ n ih => simp [bitsOf, ih]

@[simp] theorem bitsOf_snoc (n v : Nat) (b : Bool) :
    bitsOf (n + 1) (2 * v + b.toNat) = bitsOf n v ++ [b] := by
  have hb := Bool.toNat_lt b
  have hd : (2 * v + b.toNat) / 2 = v := by omega
  have hm : (2 * v + b.toNat) % 2 = b.toNat := by omega
  rw [bitsOf, hd, hm]
  cases b <;> rfl

theorem bitsOf_getElem (n v i : Nat) (h : i < (bitsOf n v).length) :
    (bitsOf n v)[i] = v.testBit (n - 1 - i) := by
  induction n generalizing v i with
  | zero => simp [bitsOf] at h
  | succ n ih =>
    simp only [bitsOf_length] at h
    simp only [bitsOf, List.getElem_append, bitsOf_length]
    split
    · next hi =>
      rw [ih, ← Nat.testBit_succ]
      congr 1
      omega
    · next hi =>
      have h0 : n + 1 - 1 - i = 0 := by omega
      rw [h0, Nat.testBit_zero]
      simp

@[simp] theorem ofBits_nil : ofBits [] = 0 := rfl

theorem ofBits_foldl (l : List Bool) (v : Nat) :
    l.foldl (fun v b => 2 * v + b.toNat) v = v * 2 ^ l.length + ofBits l := by
  induction l generalizing v with
  | nil => simp
  | cons b l ih =>
    have h0 : ofBits (b :: l) = b.toNat * 2 ^ l.length + ofBits l := by
      rw [ofBits, List.foldl_cons, ih]
      simp
    rw [List.foldl_cons, ih, h0, List.length_cons, pow_succ]
    ring

@[simp] theorem ofBits_append (l m : List Bool) :
    ofBits (l ++ m) = ofBits l * 2 ^ m.length + ofBits m := by
  rw [ofBits, List.foldl_append, ofBits_foldl m]
  rfl

theorem ofBits_cons (b : Bool) (l : List Bool) :
    ofBits (b :: l) = b.toNat * 2 ^ l.length + ofBits l := by
  rw [← List.singleton_append, ofBits_append]
  simp [ofBits]

@[simp]
theorem ofBits_snoc (l : List Bool) (b : Bool) : ofBits (l ++ [b]) = 2 * ofBits l + b.toNat := by
  rw [ofBits_append]
  simp [ofBits]
  ring

theorem ofBits_lt (l : List Bool) : ofBits l < 2 ^ l.length := by
  induction l with
  | nil => exact Nat.zero_lt_one
  | cons b l ih =>
    have hb := Bool.toNat_lt b
    have hmul : b.toNat * 2 ^ l.length ≤ 1 * 2 ^ l.length := Nat.mul_le_mul_right _ (by omega)
    rw [ofBits_cons, List.length_cons, pow_succ]
    omega

@[simp] theorem ofBits_bitsOf (n v : Nat) : ofBits (bitsOf n v) = v % 2 ^ n := by
  induction n generalizing v with
  | zero => rw [bitsOf_zero, ofBits_nil, pow_zero, Nat.mod_one]
  | succ n ih =>
    have hmod : v % 2 ^ (n + 1) = 2 * (v / 2 % 2 ^ n) + v % 2 := by
      rw [pow_succ', Nat.mod_mul, Nat.add_comm]
    rw [bitsOf, ofBits_snoc, ih, hmod]
    rcases Nat.mod_two_eq_zero_or_one v with h | h <;> rw [h] <;> rfl

@[simp] theorem ofBits_replicate_false (n : Nat) : ofBits (List.replicate n false) = 0 := by
  induction n with
  | zero => rfl
  | succ n ih => simp [List.replicate_succ, ofBits_cons, ih]

theorem ofBits_replicate_true (n : Nat) : ofBits (List.replicate n true) + 1 = 2 ^ n := by
  induction n with
  | zero => rfl
  | succ n ih =>
    simp only [List.replicate_succ, ofBits_cons, List.length_replicate, Bool.toNat_true, pow_succ]
    omega

/-- An infinite sequence of bits. -/
abbrev BitSeq := Nat → Bool

namespace BitSeq

/-- The number the first `k` bits spell. -/
def prefixVal (B : BitSeq) : Nat → Nat
  | 0 => 0
  | k + 1 => 2 * prefixVal B k + (B k).toNat

def drop (B : BitSeq) (n : Nat) : BitSeq := fun i => B (n + i)

@[simp] theorem drop_apply (B : BitSeq) (n i : Nat) : B.drop n i = B (n + i) := rfl

theorem prefixVal_succ (B : BitSeq) (k : Nat) :
    B.prefixVal (k + 1) = 2 * B.prefixVal k + (B k).toNat := rfl

theorem prefixVal_lt (B : BitSeq) (k : Nat) : B.prefixVal k < 2 ^ k := by
  induction k with
  | zero => simp [prefixVal]
  | succ k ih =>
    have := Bool.toNat_lt (B k)
    rw [prefixVal, pow_succ]
    omega

theorem prefixVal_add (B : BitSeq) (m k : Nat) :
    B.prefixVal (m + k) = B.prefixVal m * 2 ^ k + (B.drop m).prefixVal k := by
  induction k with
  | zero => simp [prefixVal]
  | succ k ih =>
    rw [← Nat.add_assoc, prefixVal, ih, prefixVal, pow_succ, drop_apply]
    ring

/-- `B` begins with the bits `l`. -/
def StartsWith (B : BitSeq) (l : List Bool) : Prop := ∀ i (h : i < l.length), B i = l[i]

theorem StartsWith.prefixVal_eq {B : BitSeq} {l : List Bool} (h : B.StartsWith l) :
    B.prefixVal l.length = ofBits l := by
  induction l using List.reverseRecOn with
  | nil => rfl
  | append_singleton l b ih =>
    have hl : B.StartsWith l := fun i hi => by
      rw [h i (by simp; omega), List.getElem_append_left hi]
    have hb : B l.length = b := by
      rw [h l.length (by simp)]
      simp
    rw [List.length_append, List.length_singleton, prefixVal, ih hl, hb, ofBits_snoc]

theorem StartsWith.append_left {B : BitSeq} {l m : List Bool} (h : B.StartsWith (l ++ m)) :
    B.StartsWith l := fun i hi => by
  rw [h i (by simp; omega), List.getElem_append_left hi]

end BitSeq

/-- The bits of a byte string, with zeros after its end. -/
def byteSeq (l : List UInt8) : BitSeq := fun i => (l.getD (i / 8) 0).toNat.testBit (7 - i % 8)

def bytesBits (l : List UInt8) : List Bool := l.flatMap (fun b => bitsOf 8 b.toNat)

@[simp] theorem bytesBits_nil : bytesBits [] = [] := rfl

@[simp] theorem bytesBits_snoc (l : List UInt8) (b : UInt8) :
    bytesBits (l ++ [b]) = bytesBits l ++ bitsOf 8 b.toNat := by simp [bytesBits]

@[simp] theorem bytesBits_length (l : List UInt8) : (bytesBits l).length = 8 * l.length := by
  induction l with
  | nil => rfl
  | cons b l ih =>
    simp only [bytesBits, List.flatMap_cons, List.length_append, bitsOf_length,
      List.length_cons] at ih ⊢
    omega

theorem byteSeq_startsWith (l m : List UInt8) : (byteSeq (l ++ m)).StartsWith (bytesBits l) := by
  induction l with
  | nil => intro i hi; simp at hi
  | cons b l ih =>
    intro i hi
    have hcons : bytesBits (b :: l) = bitsOf 8 b.toNat ++ bytesBits l := rfl
    simp only [hcons, List.getElem_append, bitsOf_length]
    split
    · next h8 =>
      have hdiv : i / 8 = 0 := by omega
      have hmod : i % 8 = i := by omega
      simp [byteSeq, hdiv, hmod, bitsOf_getElem]
    · next h8 =>
      rw [← ih]
      have hdiv : i / 8 = (i - 8) / 8 + 1 := by omega
      have hmod : i % 8 = (i - 8) % 8 := by omega
      simp [byteSeq, hdiv, hmod]

@[simp] theorem byteSeq_drop_byte (l : List UInt8) : (byteSeq l).drop 8 = byteSeq (l.drop 1) := by
  funext i
  have hdiv : (8 + i) / 8 = i / 8 + 1 := by omega
  have hmod : (8 + i) % 8 = i % 8 := by omega
  simp [byteSeq, hdiv, hmod]

theorem byteSeq_of_lt (l : List UInt8) {i : Nat} (h : i < 8) :
    byteSeq l i = (l.getD 0 0).toNat.testBit (7 - i) := by
  have hdiv : i / 8 = 0 := by omega
  have hmod : i % 8 = i := by omega
  simp [byteSeq, hdiv, hmod]

theorem testBit_shift_byte {v i : Nat} (h : i < 7) :
    (2 * v % 256).testBit (7 - i) = v.testBit (7 - (1 + i)) := by
  have h7 : 7 - i = (7 - (1 + i)) + 1 := by omega
  rw [show 256 = 2 ^ 8 from rfl, Nat.testBit_mod_two_pow, h7, Nat.testBit_succ,
    Nat.mul_div_cancel_left v (by norm_num)]
  simp
  omega

end Bcb.Lib
