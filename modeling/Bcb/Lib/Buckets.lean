import Bcb.Lib.Chain

/-! Cells hung into buckets: every new cell becomes the first of its bucket. -/

namespace Bcb.Lib

variable {β ε α : Type} {home home' : Nat → β} {head : β → Option Nat}
  {next next' : Nat → Option Nat} {m : Nat}

/-- The first `m` cells, each on the chain of its bucket. -/
def Hung (home : Nat → β) (head : β → Option Nat) (next : Nat → Option Nat) (m : Nat) : Prop :=
  ∀ b, ∃ l, Chain next (head b) l ∧ ∀ i, i ∈ l ↔ i < m ∧ home i = b

namespace Hung

theorem empty (home : Nat → β) (next : Nat → Option Nat) : Hung home (fun _ => none) next 0 :=
  fun _ => ⟨[], .nil, fun _ => by simp⟩

theorem congr (h : Hung home head next m) (hhome : ∀ i < m, home' i = home i)
    (hnext : ∀ i < m, next' i = next i) : Hung home' head next' m := by
  intro b
  obtain ⟨l, hl, hmem⟩ := h b
  refine ⟨l, hl.congr fun i hi => hnext i ((hmem i).1 hi).1, fun i => ?_⟩
  rw [hmem]
  exact and_congr_right fun hi => by rw [hhome i hi]

theorem push [DecidableEq β] (h : Hung home head next m) (hnext : next m = head (home m)) :
    Hung home (Function.update head (home m) (some m)) next (m + 1) := by
  intro b
  obtain ⟨l, hl, hmem⟩ := h b
  by_cases hb : b = home m
  · subst hb
    rw [Function.update_self]
    refine ⟨m :: l, .cons (hnext ▸ hl), fun i => ?_⟩
    rw [List.mem_cons, hmem, Nat.lt_succ_iff_lt_or_eq]
    constructor
    · rintro (rfl | ⟨hi, hb⟩)
      · exact ⟨.inr rfl, rfl⟩
      · exact ⟨.inl hi, hb⟩
    · rintro ⟨hi | rfl, hb⟩
      · exact .inr ⟨hi, hb⟩
      · exact .inl rfl
  · rw [Function.update_of_ne hb]
    refine ⟨l, hl, fun i => ?_⟩
    rw [hmem]
    constructor
    · exact fun hi => ⟨Nat.lt_succ_of_lt hi.1, hi.2⟩
    · rintro ⟨hi, rfl⟩
      have hne : i ≠ m := fun heq => hb (congrArg home heq)
      exact ⟨Nat.lt_of_le_of_ne (Nat.le_of_lt_succ hi) hne, rfl⟩

theorem chain_length_le {b : β} {l : List Nat} (hl : Chain next (head b) l)
    (hmem : ∀ i, i ∈ l ↔ i < m ∧ home i = b) : l.length ≤ m := by
  have hsub : l ⊆ List.range m := fun i hi => List.mem_range.2 ((hmem i).1 hi).1
  have hle := (hl.nodup.subperm hsub).length_le
  rwa [List.length_range] at hle

section Seek

variable {stuck : ε} {get : Nat → Except ε α} {test : α → Bool} {n : Nat} (link : α → Option Nat)
  (cell : Nat → α)

theorem seek_some (h : Hung home head (fun i => link (cell i)) m)
    (hget : ∀ i < m, get i = .ok (cell i)) (hn : m < n) {i : Nat} (hi : i < m)
    (htest : ∀ j < m, test (cell j) = true ↔ j = i) :
    seek stuck get link test n (head (home i)) = .ok (some i) := by
  obtain ⟨l, hl, hmem⟩ := h (home i)
  have hread : ∀ j ∈ l, get j = .ok (cell j) := fun j hj => hget j ((hmem j).1 hj).1
  rw [hl.seek_eq hread ((chain_length_le hl hmem).trans_lt hn)]
  have hil : i ∈ l := (hmem i).2 ⟨hi, rfl⟩
  have hsome : (l.find? fun j => test (cell j)).isSome :=
    List.find?_isSome.2 ⟨i, hil, (htest i hi).2 rfl⟩
  obtain ⟨j, hj⟩ := Option.isSome_iff_exists.1 hsome
  have hjm := ((hmem j).1 (List.mem_of_find?_eq_some hj)).1
  have hpass : test (cell j) = true := List.find?_some (p := fun j => test (cell j)) hj
  rw [hj, (htest j hjm).1 hpass]

theorem seek_none (h : Hung home head (fun i => link (cell i)) m)
    (hget : ∀ i < m, get i = .ok (cell i)) (hn : m < n)
    (htest : ∀ j < m, ¬ test (cell j) = true) (b : β) :
    seek stuck get link test n (head b) = .ok none := by
  obtain ⟨l, hl, hmem⟩ := h b
  have hread : ∀ j ∈ l, get j = .ok (cell j) := fun j hj => hget j ((hmem j).1 hj).1
  rw [hl.seek_eq hread ((chain_length_le hl hmem).trans_lt hn)]
  exact congrArg Except.ok (List.find?_eq_none.2 fun j hj => htest j ((hmem j).1 hj).1)

end Seek

end Hung

end Bcb.Lib
