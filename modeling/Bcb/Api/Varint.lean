import Bcb.Api.Container

namespace Bcb.Api

/-- The groups of seven bits, the lowest first, without a bound. -/
def varintValue (l : List UInt8) : Nat := (l.mapIdx fun i b => b.toNat % 128 * 2 ^ (7 * i)).sum

@[simp] theorem varintValue_snoc (l : List UInt8) (b : UInt8) :
    varintValue (l ++ [b]) = varintValue l + b.toNat % 128 * 2 ^ (7 * l.length) := by
  simp [varintValue, List.mapIdx_append]

theorem varintValue_lt (l : List UInt8) : varintValue l < 2 ^ (7 * l.length) := by
  induction l using List.reverseRecOn with
  | nil => exact Nat.one_pos
  | append_singleton l b ih =>
    have hle : b.toNat % 128 * 2 ^ (7 * l.length) ≤ 127 * 2 ^ (7 * l.length) :=
      Nat.mul_le_mul_right _ (by omega)
    rw [varintValue_snoc, List.length_append, List.length_singleton, Nat.mul_succ, pow_add]
    omega

theorem or_shiftLeft_mod {v x k w : Nat} (hv : v < 2 ^ k) (hk : k ≤ w) :
    v ||| x <<< k % 2 ^ w = (v + x * 2 ^ k) % 2 ^ w := by
  obtain ⟨j, rfl⟩ := Nat.exists_eq_add_of_le' hk
  have hpos := Nat.two_pow_pos k
  have hx : x % 2 ^ j * 2 ^ k < 2 ^ (j + k) := by
    rw [pow_add]
    exact Nat.mul_lt_mul_of_pos_right (Nat.mod_lt _ (Nat.two_pow_pos j)) hpos
  have hsum : v + x % 2 ^ j * 2 ^ k < 2 ^ (j + k) := by
    have hle : (x % 2 ^ j + 1) * 2 ^ k ≤ 2 ^ j * 2 ^ k :=
      Nat.mul_le_mul_right _ (Nat.mod_lt _ (Nat.two_pow_pos j))
    rw [pow_add]
    rw [Nat.add_mul, Nat.one_mul] at hle
    omega
  have hlost : x * 2 ^ k % 2 ^ (j + k) = x % 2 ^ j * 2 ^ k := by
    rw [pow_add, Nat.mul_mod_mul_right]
  have hor := or_shiftLeft hv hx
  rw [Nat.shiftLeft_eq, Nat.mod_eq_of_lt hx] at hor
  rw [Nat.shiftLeft_eq, hlost, hor, Nat.add_mod, hlost, ← Nat.add_mod_mod, Nat.mod_add_mod,
    Nat.mod_eq_of_lt hx, Nat.mod_eq_of_lt hsum]

/-- Bytes that go on, up to one that does not. -/
structure Groups (l : List UInt8) (b : UInt8) : Prop where
  more : ∀ c ∈ l, 128 ≤ c.toNat
  last : b.toNat < 128

theorem varintGetFrom_some {v i n : Nat} {buf : List UInt8} {r : Nat × Nat}
    (h : varintGetFrom v i n buf = some r) :
    ∃ l b rest, buf = l ++ b :: rest ∧ Groups l b ∧ l.length < n := by
  induction n generalizing v i buf with
  | zero => cases h
  | succ n ih =>
    cases buf with
    | nil => cases h
    | cons b buf =>
      rw [varintGetFrom] at h
      split_ifs at h with hb
      · exact ⟨[], b, buf, rfl, ⟨fun _ hc => absurd hc List.not_mem_nil, hb⟩, Nat.succ_pos n⟩
      · obtain ⟨l, c, rest, rfl, ⟨hmore, hlast⟩, hlen⟩ := ih h
        refine ⟨b :: l, c, rest, rfl, ⟨?_, hlast⟩, Nat.succ_lt_succ hlen⟩
        exact List.forall_mem_cons.2 ⟨not_lt.1 hb, hmore⟩

theorem or_group {p : List UInt8} (h : p.length < 10) (b : UInt8) :
    varintValue p ||| (b.toNat % 128) <<< (7 * p.length) % 2 ^ 64 =
      varintValue (p ++ [b]) % 2 ^ 64 := by
  rw [or_shiftLeft_mod (varintValue_lt p) (by omega), varintValue_snoc]

theorem varintGetFrom_groups {p l : List UInt8} {b : UInt8} (h : Groups l b) {n : Nat}
    (hn : p.length + n ≤ 10) (hlen : l.length < n) (rest : List UInt8) :
    varintGetFrom (varintValue p) p.length n (l ++ b :: rest) =
      some (varintValue (p ++ (l ++ [b])) % 2 ^ 64, p.length + (l.length + 1)) := by
  induction l generalizing p n with
  | nil =>
    obtain ⟨n, rfl⟩ := Nat.exists_eq_succ_of_ne_zero (Nat.ne_zero_of_lt hlen)
    rw [List.nil_append, varintGetFrom, or_group (by omega)]
    exact if_pos h.last
  | cons c l ih =>
    obtain ⟨n, rfl⟩ := Nat.exists_eq_succ_of_ne_zero (Nat.ne_zero_of_lt hlen)
    obtain ⟨hc, hmore⟩ := List.forall_mem_cons.1 h.more
    rw [List.length_cons] at hlen
    have hsnoc : (p ++ [c]).length = p.length + 1 := List.length_append
    -- as long as a byte follows, the groups fit
    have hfit : varintValue (p ++ [c]) < 2 ^ 64 :=
      (varintValue_lt _).trans_le (Nat.pow_le_pow_right (by decide) (by omega))
    have hrest := ih ⟨hmore, h.last⟩ (p := p ++ [c]) (n := n) (by omega) (by omega)
    rw [hsnoc, List.append_assoc, List.singleton_append] at hrest
    rw [List.cons_append, varintGetFrom, or_group (by omega), Nat.mod_eq_of_lt hfit,
      if_neg (not_lt.2 hc), hrest, List.length_cons, List.cons_append]
    congr 2
    omega

theorem varintGet_groups {l : List UInt8} {b : UInt8} (h : Groups l b) (hlen : l.length < 10)
    (rest : List UInt8) : varintGet (l ++ b :: rest) =
      some (varintValue (l ++ [b]) % 2 ^ 64, l.length + 1) := by
  have hget := varintGetFrom_groups (p := []) h (n := 10) le_rfl hlen rest
  rw [List.nil_append, List.length_nil, Nat.zero_add] at hget
  exact hget

/-- Nine bytes that go on, and a tenth with more than the one bit there is room for. -/
def Overlong (buf : List UInt8) : Prop :=
  ∃ l b rest, buf = l ++ b :: rest ∧ l.length = 9 ∧ Groups l b ∧ 2 ≤ b.toNat

/-- Only the tenth byte can be too much. -/
theorem varintValue_lt_iff {l : List UInt8} {b : UInt8} (hb : b.toNat < 128)
    (hlen : l.length < 10) : varintValue (l ++ [b]) < 2 ^ 64 ↔ ¬ (l.length = 9 ∧ 2 ≤ b.toNat) := by
  have hlt := varintValue_lt l
  rcases Nat.lt_or_eq_of_le (Nat.le_of_lt_succ hlen) with h8 | h9
  · have hfit : varintValue (l ++ [b]) < 2 ^ 64 := by
      apply (varintValue_lt _).trans_le
      rw [List.length_append, List.length_singleton]
      exact Nat.pow_le_pow_right (by decide) (by omega)
    exact iff_of_true hfit fun h => h8.ne h.1
  · rw [varintValue_snoc, Nat.mod_eq_of_lt hb, h9]
    rw [h9] at hlt
    omega

theorem varintPut_pos (v : Nat) : 1 ≤ (varintPut v).length := by
  rw [varintPut, varintPutGroups]
  split_ifs
  · exact le_rfl
  · exact Nat.succ_pos _

@[simp] theorem take_groups (l rest : List UInt8) (b : UInt8) :
    (l ++ b :: rest).take (l.length + 1) = l ++ [b] := by
  rw [← List.singleton_append, ← List.append_assoc]
  exact List.take_left' List.length_append

/-- Every number is read back, whatever follows it; and bytes that are accepted are read as what
they say except where they say more than 64 bits. -/
theorem varint_exact_iff (buf rest : List UInt8) :
    (∀ v < 2 ^ 64, 1 ≤ (varintPut v).length ∧ (varintPut v).length ≤ 10 ∧
      varintGet (varintPut v ++ rest) = some (v, (varintPut v).length)) ∧
    ((∀ v n, varintGet buf = some (v, n) → v = varintValue (buf.take n)) ↔ ¬ Overlong buf) := by
  refine ⟨fun v hv => ⟨varintPut_pos v, varintPut_length v, varintGet_put hv rest⟩, ?_, ?_⟩
  · rintro hexact ⟨l, b, rest, rfl, h9, hgroups, h2⟩
    have hlen : l.length < 10 := by omega
    have hvalue := hexact _ _ (varintGet_groups hgroups hlen rest)
    rw [take_groups] at hvalue
    have hlt := Nat.mod_lt (varintValue (l ++ [b])) (Nat.two_pow_pos 64)
    rw [hvalue] at hlt
    exact (varintValue_lt_iff hgroups.last hlen).1 hlt ⟨h9, h2⟩
  · intro hshort v n hget
    obtain ⟨l, b, rest, rfl, hgroups, hlen⟩ := varintGetFrom_some hget
    rw [varintGet_groups hgroups hlen] at hget
    obtain ⟨rfl, rfl⟩ := Prod.mk.inj (Option.some.inj hget)
    rw [take_groups]
    apply Nat.mod_eq_of_lt
    apply (varintValue_lt_iff hgroups.last hlen).2
    exact fun h => hshort ⟨l, b, rest, rfl, h.1, hgroups, h.2⟩

/-- `2^64`, read as an empty message. -/
theorem varintGet_truncates :
    varintGet (List.replicate 9 128 ++ [2]) = some (0, 10) ∧
      varintValue (List.replicate 9 128 ++ [2]) = 2 ^ 64 :=
  ⟨by decide, by decide⟩

end Bcb.Api
