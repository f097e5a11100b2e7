import Bcb.Lib.BitSeq

namespace Bcb.Lib.LongDivision

/-- The quotient and the remainder of the digits drawn so far. -/
structure State where
  quot : Nat
  rem : Nat

def turn (d : Nat) (s : State) (digit : Bool) : State :=
  let rem := 2 * s.rem + digit.toNat
  if d ≤ rem then ⟨2 * s.quot + 1, rem - d⟩ else ⟨2 * s.quot, rem⟩

def run (d : Nat) (digits : List Bool) : State := digits.foldl (turn d) ⟨0, 0⟩

variable {d : Nat}

theorem turn_div_mod (hd : 0 < d) (n : Nat) (digit : Bool) :
    turn d ⟨n / d, n % d⟩ digit =
      ⟨(2 * n + digit.toNat) / d, (2 * n + digit.toNat) % d⟩ := by
  have hn := Nat.div_add_mod n d
  have hrem := Nat.mod_lt n hd
  have hdigit := Bool.toNat_lt digit
  have hsum : 2 * n + digit.toNat = d * (2 * (n / d)) + (2 * (n % d) + digit.toNat) := by
    have htwice : d * (2 * (n / d)) = 2 * (d * (n / d)) := by ring
    omega
  rw [hsum, Nat.mul_add_div hd, Nat.mul_add_mod, turn]
  dsimp only
  split_ifs with hle
  · have hlt : 2 * (n % d) + digit.toNat - d < d := by omega
    rw [Nat.div_eq_sub_div hd hle, Nat.div_eq_of_lt hlt, Nat.mod_eq_sub_mod hle,
      Nat.mod_eq_of_lt hlt]
  · rw [Nat.div_eq_of_lt (not_le.1 hle), Nat.mod_eq_of_lt (not_le.1 hle), Nat.add_zero]

@[simp] theorem run_snoc (digits : List Bool) (digit : Bool) :
    run d (digits ++ [digit]) = turn d (run d digits) digit := by
  rw [run, List.foldl_append]
  rfl

theorem run_eq (hd : 0 < d) (digits : List Bool) :
    run d digits = ⟨ofBits digits / d, ofBits digits % d⟩ := by
  induction digits using List.reverseRecOn with
  | nil => rw [ofBits_nil, Nat.zero_div, Nat.zero_mod, run, List.foldl_nil]
  | append_singleton digits digit ih => rw [run_snoc, ih, turn_div_mod hd, ofBits_snoc]

theorem run_lt (hd : 0 < d) (digits : List Bool) :
    (run d digits).quot < 2 ^ digits.length ∧ (run d digits).rem < 2 ^ digits.length := by
  have hlt := ofBits_lt digits
  rw [run_eq hd]
  exact ⟨(Nat.div_le_self _ _).trans_lt hlt, (Nat.mod_le _ _).trans_lt hlt⟩

end Bcb.Lib.LongDivision
