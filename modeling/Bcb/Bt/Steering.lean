import Bcb.Bt.Represents
import Bcb.Lib.BitSums
import Mathlib.Data.Fintype.BigOperators

/-! Four bytes steer the hash of a context to whatever the Bloom filter is asked for, so more
contexts pass it than any table has room for. -/

namespace Bcb.Bt

open Lib BitSums

/-- One turn of `fnv`. -/
def fnvStep (h : UInt32) (b : UInt8) : UInt32 := (h ^^^ b.toUInt32) * 16777619

theorem fnv_append (p q : List UInt8) : fnv (p ++ q) = q.foldl fnvStep (fnv p) :=
  List.foldl_append

/-- What a low byte carries into the bits above it. -/
def carry (y : Nat) : Nat := 403 * y / 256

/-- The 16 bits above the low byte. -/
def high (h : UInt32) : Nat := h.toNat / 256 % 2 ^ 16

variable {h : UInt32} {y : Nat}

theorem exists_xor (h : UInt32) (hy : y < 256) :
    ∃ b : UInt8, (h ^^^ b.toUInt32).toNat = 256 * (h.toNat / 256) + y := by
  have hlt : h.toNat % 2 ^ 8 ^^^ y < 2 ^ 8 := Nat.xor_lt_two_pow (Nat.mod_lt _ (by decide)) hy
  refine ⟨UInt8.ofNat (h.toNat % 2 ^ 8 ^^^ y), ?_⟩
  rw [UInt32.toNat_xor, UInt8.toNat_toUInt32, UInt8.toNat_ofNat_of_lt' hlt,
    ← Nat.div_add_mod (h.toNat ^^^ (h.toNat % 2 ^ 8 ^^^ y)) (2 ^ 8), Nat.xor_div_two_pow,
    Nat.xor_mod_two_pow, Nat.div_eq_of_lt hlt, Nat.mod_eq_of_lt hlt, Nat.xor_zero,
    ← Nat.xor_assoc, Nat.xor_self, Nat.zero_xor]
  rfl

/-- Modulo `2^24` the prime is 403. -/
theorem exists_fnvStep (h : UInt32) (hy : y < 256) :
    ∃ b, (fnvStep h b).toNat % 2 ^ 24 = (256 * high h + y) * 403 % 2 ^ 24 := by
  obtain ⟨b, hb⟩ := exists_xor h hy
  refine ⟨b, ?_⟩
  have hprime : (16777619 : UInt32).toNat = 2 ^ 24 + 403 := rfl
  rw [fnvStep, UInt32.toNat_mul, hb, hprime, high]
  omega

theorem exists_high (h : UInt32) (hy : y < 256) :
    ∃ b, high (fnvStep h b) = (403 * high h + carry y) % 2 ^ 16 := by
  obtain ⟨b, hb⟩ := exists_fnvStep h hy
  have hcarry : (256 * high h + y) * 403 / 256 = 403 * high h + carry y := by
    rw [carry]
    omega
  refine ⟨b, ?_⟩
  calc high (fnvStep h b) = (fnvStep h b).toNat % 2 ^ 24 / 256 :=
        (Nat.mod_mul_right_div_self _ 256 (2 ^ 16)).symm
    _ = (256 * high h + y) * 403 / 256 % 2 ^ 16 := by
        rw [hb]
        exact Nat.mod_mul_right_div_self _ 256 (2 ^ 16)
    _ = (403 * high h + carry y) % 2 ^ 16 := by rw [hcarry]

/-- What three low bytes carry can be any number of 16 bits. -/
theorem exists_carries {t : Nat} (ht : t < 2 ^ 16) : ∃ y₀ < 256, ∃ y₁ < 256, ∃ y₂ < 256,
    (carry y₀ + (403 * carry y₁ + 31337 * carry y₂)) % 2 ^ 16 = t := by
  have hfull : pages 16 5 (sums [(List.range 256).map carry,
      (List.range 256).map fun y => 403 * carry y,
      (List.range 4).map fun y => 31337 * carry y]) = 2 ^ 2 ^ 16 - 1 := by
    decide +kernel
  obtain ⟨xs, hxs, hsum⟩ := exists_sum_mod hfull ht
  cases hxs with
  | cons h₀ hxs =>
    cases hxs with
    | cons h₁ hxs =>
      cases hxs with
      | cons h₂ hxs =>
        cases hxs
        obtain ⟨y₀, hy₀, rfl⟩ := List.mem_map.1 h₀
        obtain ⟨y₁, hy₁, rfl⟩ := List.mem_map.1 h₁
        obtain ⟨y₂, hy₂, rfl⟩ := List.mem_map.1 h₂
        exact ⟨y₀, List.mem_range.1 hy₀, y₁, List.mem_range.1 hy₁, y₂,
          (List.mem_range.1 hy₂).trans (by decide), hsum⟩

theorem exists_steer_high (h : UInt32) {t : Nat} (ht : t < 2 ^ 16) :
    ∃ q : List UInt8, q.length = 3 ∧ high (q.foldl fnvStep h) = t := by
  obtain ⟨y₀, hy₀, y₁, hy₁, y₂, hy₂, hsum⟩ :=
    exists_carries (t := (t + (2 ^ 16 - 403 ^ 3 * high h % 2 ^ 16)) % 2 ^ 16)
      (Nat.mod_lt _ (by decide))
  obtain ⟨b₂, hb₂⟩ := exists_high h hy₂
  obtain ⟨b₁, hb₁⟩ := exists_high (fnvStep h b₂) hy₁
  obtain ⟨b₀, hb₀⟩ := exists_high (fnvStep (fnvStep h b₂) b₁) hy₀
  refine ⟨[b₂, b₁, b₀], rfl, ?_⟩
  change high (fnvStep (fnvStep (fnvStep h b₂) b₁) b₀) = t
  omega

/-- Four bytes steer the bits of the filter. -/
theorem exists_steer (h : UInt32) (k : Nat) :
    ∃ q : List UInt8, q.length = 4 ∧ (q.foldl fnvStep h).toNat % 2 ^ 24 = k % 2 ^ 24 := by
  -- 403 is invertible
  have hinv : 403 * 10241179 % 2 ^ 24 = 1 := by decide
  have hlt : k * 10241179 % 2 ^ 24 / 256 < 2 ^ 16 := by omega
  obtain ⟨q, hq, hhigh⟩ := exists_steer_high h hlt
  obtain ⟨b, hb⟩ := exists_fnvStep (q.foldl fnvStep h)
    (Nat.mod_lt (k * 10241179 % 2 ^ 24) (by decide : 0 < 256))
  refine ⟨q ++ [b], by rw [List.length_append, hq]; rfl, ?_⟩
  rw [List.foldl_append]
  change (fnvStep (q.foldl fnvStep h) b).toNat % 2 ^ 24 = _
  rw [hb, hhigh, Nat.div_add_mod]
  calc k * 10241179 % 2 ^ 24 * 403 % 2 ^ 24 = k * (403 * 10241179) % 2 ^ 24 := by
        rw [Nat.mod_mul_mod, Nat.mul_assoc, Nat.mul_comm 10241179]
    _ = k % 2 ^ 24 := by rw [Nat.mul_mod, hinv, Nat.mul_one, Nat.mod_mod]

/-- Twenty bytes. -/
def bytesOf (p : Fin 20 → Fin 256) : List UInt8 := List.ofFn fun i => UInt8.ofNat (p i)

theorem bytesOf_injective : Function.Injective bytesOf := by
  intro p p' heq
  have hfun := List.ofFn_injective heq
  funext i
  have hi := congrArg UInt8.toNat (congrFun hfun i)
  rw [UInt8.toNat_ofNat_of_lt' (p i).isLt, UInt8.toNat_ofNat_of_lt' (p' i).isLt] at hi
  exact Fin.ext hi

/-- No list of `2^31` contexts has all those of one hash. -/
theorem exists_fresh {l : List (List UInt8)} (hl : l.length ≤ 2 ^ 31) (k : Nat) :
    ∃ c : List UInt8, c.length = btMaxDepth ∧ c ∉ l ∧ (fnv c).toNat % 2 ^ 24 = k % 2 ^ 24 := by
  choose steer hlen hsteer using fun p => exists_steer (fnv (bytesOf p)) k
  by_contra hno
  have hmem : ∀ p, bytesOf p ++ steer p ∈ l := by
    intro p
    by_contra hp
    refine hno ⟨bytesOf p ++ steer p, ?_, hp, ?_⟩
    · rw [List.length_append, bytesOf, List.length_ofFn, hlen]
    · rw [fnv_append]
      exact hsteer p
  have hinj : Function.Injective fun p => bytesOf p ++ steer p := by
    intro p p' heq
    apply bytesOf_injective
    exact (List.append_inj heq (by rw [bytesOf, bytesOf, List.length_ofFn, List.length_ofFn])).1
  have hcard := Finset.card_le_card_of_injOn (s := Finset.univ) (t := l.toFinset) _
    (fun p _ => List.mem_toFinset.2 (hmem p)) hinj.injOn
  rw [Finset.card_univ, Fintype.card_fun, Fintype.card_fin, Fintype.card_fin] at hcard
  have hle := hcard.trans (l.toFinset_card_le.trans hl)
  norm_num at hle

section Bloom

variable {B : Build} {bloom : Nat → UInt8} {ch ch' : UInt32}

theorem bloomHasBit_congr (heq : ch.toNat % 2 ^ 24 = ch'.toNat % 2 ^ 24)
    (h : bloomHasBit B bloom ch) : bloomHasBit B bloom ch' := by
  have hmod : ∀ {k}, k ≤ 24 → ch.toNat % 2 ^ k = ch'.toNat % 2 ^ k := by
    intro k hk
    rw [← Nat.mod_mod_of_dvd ch.toNat (pow_dvd_pow 2 hk), heq,
      Nat.mod_mod_of_dvd _ (pow_dvd_pow 2 hk)]
  have h8 : ch.toNat % 8 = ch'.toNat % 8 := hmod (k := 3) (by decide)
  unfold bloomHasBit at h ⊢
  rw [Build.bloomMask, Build.bloomBits, Nat.and_two_pow_sub_one_eq_mod] at h ⊢
  rwa [← hmod B.bloomLog_le, ← h8]

theorem BloomHas.congr {c c' : List UInt8} (heq : (fnv c').toNat % 2 ^ 24 = (fnv c).toNat % 2 ^ 24)
    (h : BloomHas B bloom c) : BloomHas B bloom c' := by
  refine ⟨bloomHasBit_congr heq.symm h.1, bloomHasBit_congr ?_ h.2⟩
  have hprime : (2654435761 : UInt32).toNat = 2654435761 := rfl
  rw [UInt32.toNat_mul, UInt32.toNat_mul, hprime]
  omega

end Bloom

end Bcb.Bt
