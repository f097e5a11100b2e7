import Mathlib.Data.Fintype.Card
import Mathlib.Data.Finset.Card
import Mathlib.Tactic.Common

namespace Bcb.Lib

variable {ε ι α : Type}

/-- The cells met from a link on, as long as the turns last. -/
def walk (stuck : ε) (get : ι → Except ε α) (next : α → Option ι) :
    Nat → Option ι → Except ε (List α)
  | 0, _ => throw stuck
  | _ + 1, none => return []
  | n + 1, some i => do
    let a ← get i
    let rest ← walk stuck get next n (next a)
    return a :: rest

theorem walk_congr {stuck : ε} {get get' : ι → Except ε α} {next : α → Option ι} {p : ι → Prop}
    (hget : ∀ i, p i → get i = get' i)
    (hnext : ∀ i a, p i → get i = .ok a → ∀ j, next a = some j → p j) (n : Nat) {o : Option ι}
    (ho : ∀ i, o = some i → p i) : walk stuck get next n o = walk stuck get' next n o := by
  induction n generalizing o with
  | zero => rfl
  | succ n ih =>
    cases o with
    | none => rfl
    | some i =>
      have hi := ho i rfl
      rw [walk, walk, ← hget i hi]
      cases ha : get i with
      | error e => rfl
      | ok a =>
        have hrest := ih (hnext i a hi ha)
        change (walk stuck get next n (next a) >>= _) = (walk stuck get' next n (next a) >>= _)
        rw [hrest]

/-- The place of the first cell from a link on that passes a test, `none` where none does. -/
def seek (stuck : ε) (get : ι → Except ε α) (next : α → Option ι) (test : α → Bool) :
    Nat → Option ι → Except ε (Option ι)
  | 0, _ => throw stuck
  | _ + 1, none => return none
  | n + 1, some i => do
    let a ← get i
    if test a then return some i else seek stuck get next test n (next a)

/-- `l` are the places of the cells met from a link on. -/
inductive Chain (next : ι → Option ι) : Option ι → List ι → Prop
  | nil : Chain next none []
  | cons {i : ι} {l : List ι} : Chain next (next i) l → Chain next (some i) (i :: l)

namespace Chain

variable {next : ι → Option ι} {o : Option ι} {l m : List ι}

theorem unique (hl : Chain next o l) (hm : Chain next o m) : l = m := by
  induction hl generalizing m with
  | nil => cases hm; rfl
  | cons _ ih =>
    cases hm with
    | cons h => rw [ih h]

theorem of_mem (h : Chain next o l) {i : ι} (hi : i ∈ l) :
    ∃ l' < l.length, ∃ m, Chain next (next i) m ∧ m.length = l' := by
  induction h with
  | nil => cases hi
  | @cons j l hl ih =>
    rcases List.mem_cons.1 hi with rfl | hi
    · exact ⟨l.length, by simp, l, hl, rfl⟩
    · obtain ⟨l', hlt, m, hm, hlen⟩ := ih hi
      exact ⟨l', by simp only [List.length_cons]; omega, m, hm, hlen⟩

theorem nodup (h : Chain next o l) : l.Nodup := by
  induction h with
  | nil => exact List.nodup_nil
  | @cons i l hl ih =>
    refine List.nodup_cons.2 ⟨?_, ih⟩
    intro hi
    obtain ⟨l', hlt, m, hm, hlen⟩ := hl.of_mem hi
    rw [hm.unique hl] at hlen
    omega

theorem mem_lt {next : Nat → Option Nat} {o : Option Nat} {l : List Nat} (h : Chain next o l)
    {N : Nat} (ho : ∀ k, o = some k → k < N)
    (hnext : ∀ i ∈ l, i < N → ∀ k, next i = some k → k < N) : ∀ i ∈ l, i < N := by
  induction h with
  | nil => exact fun _ hi => (nomatch hi)
  | @cons i l hl ih =>
    intro j hj
    rcases List.mem_cons.1 hj with rfl | hj
    · exact ho j rfl
    · exact ih (hnext i List.mem_cons_self (ho i rfl))
        (fun x hx => hnext x (List.mem_cons_of_mem i hx)) j hj

theorem length_le {next : Nat → Option Nat} {o : Option Nat} {l : List Nat} (h : Chain next o l)
    {N : Nat} (hlt : ∀ i ∈ l, i < N) : l.length ≤ N := by
  have hsub : l ⊆ List.range N := fun i hi => List.mem_range.2 (hlt i hi)
  have hle := (h.nodup.subperm hsub).length_le
  rwa [List.length_range] at hle

theorem eq_toList {next : Nat → Option Nat} {o : Option Nat} {l : List Nat} (h : Chain next o l)
    (hlt : ∀ i ∈ l, i < 1) : l = o.toList := by
  have hlen := h.length_le hlt
  cases h with
  | nil => rfl
  | @cons i l hl =>
    obtain rfl : l = [] := List.length_eq_zero_iff.1 (by rw [List.length_cons] at hlen; omega)
    rfl

theorem congr {next' : ι → Option ι} (h : Chain next o l) (heq : ∀ i ∈ l, next' i = next i) :
    Chain next' o l := by
  induction h with
  | nil => exact .nil
  | @cons i l hl ih =>
    have htail : Chain next' (next i) l := ih (fun j hj => heq j (List.mem_cons_of_mem i hj))
    rw [← heq i List.mem_cons_self] at htail
    exact .cons htail

theorem walk_eq {stuck : ε} {get : ι → Except ε α} {link : α → Option ι} {cell : ι → α}
    (h : Chain (fun i => link (cell i)) o l) (hget : ∀ i ∈ l, get i = .ok (cell i))
    {n : Nat} (hn : l.length < n) : walk stuck get link n o = .ok (l.map cell) := by
  induction h generalizing n with
  | nil =>
    obtain ⟨n, rfl⟩ : ∃ k, n = k + 1 := ⟨n - 1, by omega⟩
    rfl
  | @cons i l hl ih =>
    obtain ⟨n, rfl⟩ : ∃ k, n = k + 1 := ⟨n - 1, by omega⟩
    rw [List.length_cons] at hn
    have hrest := ih (fun j hj => hget j (List.mem_cons_of_mem i hj)) (by omega : l.length < n)
    have hi := hget i List.mem_cons_self
    simp only [walk, hi]
    change (walk stuck get link n (link (cell i)) >>= fun rest => pure (cell i :: rest)) = _
    rw [hrest]
    rfl

theorem seek_eq {stuck : ε} {get : ι → Except ε α} {link : α → Option ι} {cell : ι → α}
    {test : α → Bool} (h : Chain (fun i => link (cell i)) o l)
    (hget : ∀ i ∈ l, get i = .ok (cell i)) {n : Nat} (hn : l.length < n) :
    seek stuck get link test n o = .ok (l.find? fun i => test (cell i)) := by
  induction h generalizing n with
  | nil =>
    obtain ⟨n, rfl⟩ : ∃ k, n = k + 1 := ⟨n - 1, by omega⟩
    rfl
  | @cons i l hl ih =>
    obtain ⟨n, rfl⟩ : ∃ k, n = k + 1 := ⟨n - 1, by omega⟩
    rw [List.length_cons] at hn
    have hrest := ih (fun j hj => hget j (List.mem_cons_of_mem i hj)) (by omega : l.length < n)
    have hi := hget i List.mem_cons_self
    have hstep : seek stuck get link test (n + 1) (some i) =
        if test (cell i) then .ok (some i) else seek stuck get link test n (link (cell i)) := by
      rw [seek, hi]
      rfl
    rw [hstep, hrest, List.find?_cons]
    cases test (cell i) <;> rfl

end Chain

end Bcb.Lib
