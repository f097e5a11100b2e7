import Bcb.Bt.Validate
import Mathlib.Data.Finset.Card
import Mathlib.Data.Nat.Bitwise

namespace Bcb.Bt

open Lib

variable {B : Build} {s : BtV3Snapshot}

/-- The entry at an index that can be read. -/
def BtV3Snapshot.cell (s : BtV3Snapshot) (i : Nat) : BtEntry :=
  match s.pool i with
  | .ok e => e
  | .error _ => ⟨fun _ => 0, 0, 0, 0, -1⟩

def BtV3Snapshot.next (s : BtV3Snapshot) (i : Nat) : Option Nat := link (s.cell i).ctxNext

theorem BtV3Snapshot.cell_eq {i : Nat} {e : BtEntry} (h : s.pool i = .ok e) : s.cell i = e := by
  rw [cell, h]

/-- What a reader relies on. -/
structure Validated (s : BtV3Snapshot) : Prop where
  pow : ∃ j, s.ctxNslots = 2 ^ j
  slot : ∀ i < s.ctxNslots, ∃ v, s.ctxSlot i = .ok v ∧ ∀ k, link v = some k → k < s.ctxUsed
  free : ∃ i < s.ctxNslots, ∃ v, s.ctxSlot i = .ok v ∧ link v = none
  ctx : ∀ i < s.ctxUsed, ∃ e, s.ctxPool i = .ok e ∧
    ∃ l, Chain s.next (link e.firstEntry) l ∧ ∀ j ∈ l, s.pool j = .ok (s.cell j)

theorem allFrom_ok {p : Nat → Outcome Bool} {n i : Nat} (h : allFrom p n i = .ok true) {j : Nat}
    (hi : i ≤ j) (hj : j < i + n) : p j = .ok true := by
  induction n generalizing i with
  | zero => omega
  | succ n ih =>
    obtain ⟨b, hb, h⟩ := bind_eq_ok.1 h
    cases b with
    | false => cases h
    | true =>
      rcases Nat.lt_or_eq_of_le hi with hlt | rfl
      · exact ih h hlt (by omega)
      · exact hb

theorem checkSlots_ok {n i : Nat} {hasEmpty found : Bool}
    (h : checkSlots s n i hasEmpty = .ok (some found)) :
    (∀ j, i ≤ j → j < i + n →
      ∃ v, s.ctxSlot j = .ok v ∧ ∀ k, link v = some k → k < s.ctxUsed) ∧
    (found = true → hasEmpty = true ∨
      ∃ j, i ≤ j ∧ j < i + n ∧ ∃ v, s.ctxSlot j = .ok v ∧ link v = none) := by
  induction n generalizing i hasEmpty with
  | zero =>
    cases h
    exact ⟨fun j _ _ => by omega, fun hf => .inl hf⟩
  | succ n ih =>
    obtain ⟨v, hv, h⟩ := bind_eq_ok.1 h
    -- the slot `i` itself, then those after it
    have hsplit : ∀ {hasEmpty'}, checkSlots s n (i + 1) hasEmpty' = .ok (some found) →
        (∀ k, link v = some k → k < s.ctxUsed) →
        (hasEmpty' = true → hasEmpty = true ∨ link v = none) →
        (∀ j, i ≤ j → j < i + (n + 1) →
          ∃ v, s.ctxSlot j = .ok v ∧ ∀ k, link v = some k → k < s.ctxUsed) ∧
        (found = true → hasEmpty = true ∨
          ∃ j, i ≤ j ∧ j < i + (n + 1) ∧ ∃ v, s.ctxSlot j = .ok v ∧ link v = none) := by
      intro hasEmpty' hrest hhere hempty
      obtain ⟨hslots, hfound⟩ := ih hrest
      constructor
      · intro j hij hj
        rcases Nat.lt_or_eq_of_le hij with hlt | rfl
        · exact hslots j hlt (by omega)
        · exact ⟨v, hv, hhere⟩
      · intro hf
        rcases hfound hf with he | ⟨j, hij, hj, hfree⟩
        · rcases hempty he with he | hnone
          · exact .inl he
          · exact .inr ⟨i, le_rfl, by omega, v, hv, hnone⟩
        · exact .inr ⟨j, by omega, by omega, hfree⟩
    cases hlink : link v with
    | none =>
      simp only [hlink] at h
      exact hsplit h (fun k hk => (nomatch hlink.symm.trans hk)) fun _ => .inr hlink
    | some k =>
      simp only [hlink] at h
      split_ifs at h with hk
      · cases h
      · apply hsplit h _ fun he => .inl he
        intro k' hk'
        obtain rfl := Option.some.inj (hlink.symm.trans hk')
        exact Nat.lt_of_not_le hk

theorem markChain_ok {n : Nat} {o : Option Nat} {seen seen' : Nat → Bool}
    (h : markChain s n o seen = .ok (some seen')) :
    ∃ l, Chain s.next o l ∧ ∀ j ∈ l, s.pool j = .ok (s.cell j) := by
  induction n generalizing o seen with
  | zero => cases h
  | succ n ih =>
    cases o with
    | none => exact ⟨[], .nil, fun _ hj => (nomatch hj)⟩
    | some i =>
      rw [markChain] at h
      split_ifs at h with hi
      · cases h
      · obtain ⟨e, he, h⟩ := bind_eq_ok.1 h
        obtain ⟨l, hl, hmem⟩ := ih h
        have hcell := BtV3Snapshot.cell_eq he
        refine ⟨i :: l, .cons ?_, ?_⟩
        · rwa [BtV3Snapshot.next, hcell]
        · intro j hj
          rcases List.mem_cons.1 hj with rfl | hj
          · rw [he, hcell]
          · exact hmem j hj

theorem markChains_ok {n i : Nat} {seen : Nat → Bool} (h : markChains s n i seen = .ok true)
    {j : Nat} (hi : i ≤ j) (hj : j < i + n) : ∃ e, s.ctxPool j = .ok e ∧
      ∃ l, Chain s.next (link e.firstEntry) l ∧ ∀ j ∈ l, s.pool j = .ok (s.cell j) := by
  induction n generalizing i seen with
  | zero => omega
  | succ n ih =>
    obtain ⟨e, he, h⟩ := bind_eq_ok.1 h
    obtain ⟨o, ho, h⟩ := bind_eq_ok.1 h
    cases o with
    | none => cases h
    | some seen' =>
      rcases Nat.lt_or_eq_of_le hi with hlt | rfl
      · exact ih h hlt (by omega)
      · exact ⟨e, he, markChain_ok ho⟩

theorem checkCtx_ok {i : Nat} (h : checkCtx s i = .ok true) :
    ∃ e, s.ctxPool i = .ok e ∧ ∀ k, link e.firstEntry = some k → k < s.poolUsed := by
  obtain ⟨e, he, h⟩ := bind_eq_ok.1 h
  refine ⟨e, he, fun k hk => ?_⟩
  have hok : entryOk e.ctxLen e.firstEntry s.poolUsed = true := Except.ok.inj h
  simp only [entryOk, Bool.and_eq_true, hk, Option.all_some, decide_eq_true_eq] at hok
  exact hok.2

theorem checkEntry_ok {i : Nat} (h : checkEntry s i = .ok true) :
    ∃ e, s.pool i = .ok e ∧ ∀ k, link e.ctxNext = some k → k < s.poolUsed := by
  obtain ⟨e, he, h⟩ := bind_eq_ok.1 h
  refine ⟨e, he, fun k hk => ?_⟩
  have hok : entryOk e.ctxLen e.ctxNext s.poolUsed = true := Except.ok.inj h
  simp only [entryOk, Bool.and_eq_true, hk, Option.all_some, decide_eq_true_eq] at hok
  exact hok.2

/-- What `bt_v3_validate` has gone through when it accepts. -/
structure Checks (B : Build) (s : BtV3Snapshot) : Prop where
  sameBuild : s.sameBuild B = true
  slots : ¬ (s.ctxNslots = 0 ∨ s.ctxNslots &&& (s.ctxNslots - 1) ≠ 0)
  checkSlots : checkSlots s s.ctxNslots 0 false = .ok (some true)
  checkCtx : ∀ i < s.ctxUsed, checkCtx s i = .ok true
  checkEntry : ∀ i < s.poolUsed, checkEntry s i = .ok true
  markChains : s.poolUsed ≠ 0 → markChains s s.ctxUsed 0 (fun _ => false) = .ok true

theorem btV3Validate_checks (h : btV3Validate B s = .ok true) : Checks B s := by
  have hsame : s.sameBuild B = true := by
    cases hsame : s.sameBuild B with
    | true => rfl
    | false =>
      simp only [btV3Validate, hsame, Bool.not_false, if_true] at h
      cases h
  have hslots : ¬ (s.ctxNslots = 0 ∨ s.ctxNslots &&& (s.ctxNslots - 1) ≠ 0) := by
    intro hslots
    simp only [btV3Validate, hsame, Bool.not_true, Bool.false_eq_true, if_false, if_pos hslots] at h
    cases h
  simp only [btV3Validate, hsame, Bool.not_true, Bool.false_eq_true, if_false, if_neg hslots] at h
  obtain ⟨o, ho, h⟩ := bind_eq_ok.1 h
  match o, ho, h with
  | some true, ho, h =>
    obtain ⟨ctxs, hctxs, h⟩ := bind_eq_ok.1 h
    cases ctxs with
    | false => cases h
    | true =>
      obtain ⟨pools, hpools, h⟩ := bind_eq_ok.1 h
      cases pools with
      | false => cases h
      | true =>
        refine ⟨hsame, hslots, ho, fun i hi => allFrom_ok hctxs (Nat.zero_le i) (by omega),
          fun i hi => allFrom_ok hpools (Nat.zero_le i) (by omega), fun hused => ?_⟩
        simpa only [Bool.not_true, Bool.false_eq_true, if_false, if_neg hused] using h

theorem btV3Validate_ok (h : btV3Validate B s = .ok true) : s.sameBuild B = true ∧ Validated s := by
  have hc := btV3Validate_checks h
  have hpow := (Nat.and_sub_one_eq_zero_iff_isPowerOfTwo (fun h0 => hc.slots (.inl h0))).1
    (by_contra fun hand => hc.slots (.inr hand))
  obtain ⟨hslot, hfree⟩ := checkSlots_ok hc.checkSlots
  refine ⟨hc.sameBuild, hpow, fun i hi => hslot i (Nat.zero_le i) (by omega), ?_, ?_⟩
  · rcases hfree rfl with hfalse | ⟨i, -, hi, hfree⟩
    · cases hfalse
    · exact ⟨i, by omega, hfree⟩
  · intro i hi
    by_cases hused : s.poolUsed = 0
    · -- without entries every link is empty
      obtain ⟨e, he, hlink⟩ := checkCtx_ok (hc.checkCtx i hi)
      have hnone : link e.firstEntry = none := by
        cases hl : link e.firstEntry with
        | none => rfl
        | some k =>
          have hk := hlink k hl
          omega
      exact ⟨e, he, [], by rw [hnone]; exact .nil, fun _ hj => (nomatch hj)⟩
    · exact markChains_ok (hc.markChains hused) (Nat.zero_le i) (by omega)

end Bcb.Bt
