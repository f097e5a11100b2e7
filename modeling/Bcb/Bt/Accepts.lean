import Bcb.Bt.Checked

namespace Bcb.Bt

open Lib

variable {B : Build} {s : BtV3Snapshot}

/-- The tables are in bounds, with a free slot, and `chain i` are the entries of context `i`. -/
structure Acceptable (s : BtV3Snapshot) (chain : Nat → List Nat) : Prop where
  size : ∃ k, s.ctxNslots = 2 ^ k
  slot : ∀ i < s.ctxNslots, ∃ v, s.ctxSlot i = .ok v ∧ ∀ k, link v = some k → k < s.ctxUsed
  free : ∃ i < s.ctxNslots, ∃ v, s.ctxSlot i = .ok v ∧ link v = none
  ctx : ∀ i < s.ctxUsed, ∃ e, s.ctxPool i = .ok e ∧ e.ctxLen.toNat ≤ btMaxDepth ∧
    Chain s.next (link e.firstEntry) (chain i)
  entry : ∀ i < s.poolUsed, ∃ e, s.pool i = .ok e ∧ e.ctxLen.toNat ≤ btMaxDepth ∧
    ∀ k, link e.ctxNext = some k → k < s.poolUsed
  below : ∀ i < s.ctxUsed, ∀ j ∈ chain i, j < s.poolUsed
  apart : ∀ i < s.ctxUsed, ∀ i' < s.ctxUsed, i ≠ i' → ∀ j ∈ chain i, j ∉ chain i'

theorem allFrom_of_forall {p : Nat → Outcome Bool} {n i : Nat}
    (h : ∀ j, i ≤ j → j < i + n → p j = .ok true) : allFrom p n i = .ok true := by
  induction n generalizing i with
  | zero => rfl
  | succ n ih =>
    have hi := h i le_rfl (by omega)
    have hrest : allFrom p n (i + 1) = .ok true := ih fun j hj hlt => h j (by omega) (by omega)
    rw [allFrom, hi]
    exact hrest

theorem checkSlots_of_forall {n i : Nat}
    (h : ∀ j, i ≤ j → j < i + n → ∃ v, s.ctxSlot j = .ok v ∧ ∀ k, link v = some k → k < s.ctxUsed)
    (hasEmpty : Bool) : ∃ found, checkSlots s n i hasEmpty = .ok (some found) ∧
      (hasEmpty = true ∨ (∃ j, i ≤ j ∧ j < i + n ∧ ∃ v, s.ctxSlot j = .ok v ∧ link v = none) →
        found = true) := by
  induction n generalizing i hasEmpty with
  | zero =>
    refine ⟨hasEmpty, rfl, ?_⟩
    rintro (hempty | ⟨j, hij, hj, -⟩)
    · exact hempty
    · omega
  | succ n ih =>
    obtain ⟨v, hv, hlink⟩ := h i le_rfl (by omega)
    have hrest := fun hasEmpty' => ih (i := i + 1)
      (fun j hj hlt => h j (by omega) (by omega)) hasEmpty'
    rw [checkSlots, hv, ok_bind]
    cases hl : link v with
    | none =>
      obtain ⟨found, hrun, hfound⟩ := hrest true
      exact ⟨found, hrun, fun _ => hfound (.inl rfl)⟩
    | some k =>
      obtain ⟨found, hrun, hfound⟩ := hrest hasEmpty
      dsimp only
      rw [if_neg (Nat.not_le_of_lt (hlink k hl))]
      refine ⟨found, hrun, fun hfree => hfound ?_⟩
      refine hfree.imp_right ?_
      rintro ⟨j, hij, hj, w, hw, hnone⟩
      refine ⟨j, ?_, by omega, w, hw, hnone⟩
      -- slot `i` is taken
      rcases Nat.lt_or_eq_of_le hij with hlt | rfl
      · exact hlt
      · obtain rfl := Except.ok.inj (hv.symm.trans hw)
        cases hl.symm.trans hnone

theorem entryOk_of {len : UInt8} {idx : Int} {used : Nat} (hlen : len.toNat ≤ btMaxDepth)
    (h : ∀ k, link idx = some k → k < used) : entryOk len idx used = true := by
  rw [entryOk, decide_eq_true hlen, Bool.true_and]
  cases hl : link idx with
  | none => rfl
  | some k => exact decide_eq_true (h k hl)

theorem markChain_of_chain {o : Option Nat} {l : List Nat} {seen : Nat → Bool}
    (h : Chain s.next o l) (hread : ∀ j ∈ l, ∃ e, s.pool j = .ok e)
    (hlt : ∀ j ∈ l, j < s.poolUsed) (hfresh : ∀ j ∈ l, seen j = false) {n : Nat}
    (hn : l.length < n) : ∃ seen', markChain s n o seen = .ok (some seen') ∧
      ∀ j, seen' j = true ↔ seen j = true ∨ j ∈ l := by
  induction h generalizing seen n with
  | nil =>
    obtain ⟨n, rfl⟩ : ∃ k, n = k + 1 := ⟨n - 1, by omega⟩
    exact ⟨seen, rfl, fun j => by simp⟩
  | @cons i l hl ih =>
    obtain ⟨n, rfl⟩ : ∃ k, n = k + 1 := ⟨n - 1, by omega⟩
    obtain ⟨e, he⟩ := hread i List.mem_cons_self
    have hi : ¬ (s.poolUsed ≤ i ∨ seen i = true) := by
      rintro (hle | hseen)
      · exact absurd (hlt i List.mem_cons_self) (Nat.not_lt_of_le hle)
      · rw [hfresh i List.mem_cons_self] at hseen
        cases hseen
    have hne : ∀ j ∈ l, j ≠ i := by
      rintro j hj rfl
      exact (List.nodup_cons.1 (Chain.cons hl).nodup).1 hj
    have hfresh' : ∀ j ∈ l, Function.update seen i true j = false := by
      intro j hj
      rw [Function.update_of_ne (hne j hj)]
      exact hfresh j (List.mem_cons_of_mem i hj)
    obtain ⟨seen', hrun, hseen'⟩ := ih (fun j hj => hread j (List.mem_cons_of_mem i hj))
      (fun j hj => hlt j (List.mem_cons_of_mem i hj)) hfresh'
      (n := n) (by rw [List.length_cons] at hn; omega)
    refine ⟨seen', ?_, fun j => ?_⟩
    · rw [markChain, if_neg hi, he, ok_bind, ← BtV3Snapshot.cell_eq he]
      exact hrun
    · rw [hseen', List.mem_cons, Function.update_apply]
      by_cases hj : j = i
      · simp [hj]
      · simp [hj]

variable {chain : Nat → List Nat}

theorem Acceptable.markChains (h : Acceptable s chain) {n i : Nat} (hn : i + n ≤ s.ctxUsed)
    {seen : Nat → Bool} (hfresh : ∀ k, i ≤ k → k < i + n → ∀ j ∈ chain k, seen j = false) :
    markChains s n i seen = .ok true := by
  induction n generalizing i seen with
  | zero => rfl
  | succ n ih =>
    have hi : i < s.ctxUsed := by omega
    obtain ⟨e, he, -, hchain⟩ := h.ctx i hi
    have hlen : (chain i).length ≤ s.poolUsed := hchain.length_le (h.below i hi)
    obtain ⟨seen', hrun, hseen'⟩ := markChain_of_chain hchain
      (fun j hj => (h.entry j (h.below i hi j hj)).imp fun _ he => he.1) (h.below i hi)
      (hfresh i le_rfl (by omega)) (Nat.lt_succ_of_le hlen)
    rw [Bt.markChains, he, ok_bind, hrun, ok_bind]
    apply ih (by omega)
    intro k hk hkn j hj
    have hold := hfresh k (by omega) (by omega) j hj
    have happart := h.apart k (by omega) i hi (by omega) j hj
    cases hs : seen' j with
    | false => rfl
    | true =>
      rcases (hseen' j).1 hs with hs' | hj'
      · exact hs'.symm.trans hold
      · exact absurd hj' happart

theorem btV3Validate_full (hbuild : s.sameBuild B = true)
    (hslot : ∀ i < s.ctxNslots, ∃ v k, s.ctxSlot i = .ok v ∧ link v = some k ∧ k < s.ctxUsed) :
    btV3Validate B s = .ok false := by
  obtain ⟨found, hrun, -⟩ := checkSlots_of_forall (s := s) (i := 0) (n := s.ctxNslots)
    (fun j _ hj => by
      obtain ⟨v, k, hv, hl, hk⟩ := hslot j (by omega)
      exact ⟨v, hv, fun k' hk' => Option.some.inj (hl.symm.trans hk') ▸ hk⟩) false
  have hfound : found = false := by
    cases found with
    | false => rfl
    | true =>
      rcases (checkSlots_ok hrun).2 rfl with h | ⟨j, -, hj, v, hv, hnone⟩
      · exact h.symm
      · obtain ⟨v', k, hv', hl, -⟩ := hslot j (by omega)
        obtain rfl := Except.ok.inj (hv.symm.trans hv')
        cases hl.symm.trans hnone
  simp only [btV3Validate, hbuild, Bool.not_true, Bool.false_eq_true, if_false, hrun, hfound,
    ok_bind]
  split_ifs <;> rfl

theorem Acceptable.btV3Validate (h : Acceptable s chain) (hbuild : s.sameBuild B = true) :
    btV3Validate B s = .ok true := by
  obtain ⟨k, hk⟩ := h.size
  have hslots : ¬ (s.ctxNslots = 0 ∨ s.ctxNslots &&& (s.ctxNslots - 1) ≠ 0) := by
    have hpos : s.ctxNslots ≠ 0 := hk ▸ (Nat.two_pow_pos k).ne'
    rintro (h0 | hand)
    · exact hpos h0
    · exact hand ((Nat.and_sub_one_eq_zero_iff_isPowerOfTwo hpos).2 ⟨k, hk⟩)
  obtain ⟨found, hrun, hfound⟩ := checkSlots_of_forall (s := s) (i := 0) (n := s.ctxNslots)
    (fun j _ hj => h.slot j (by omega)) false
  obtain ⟨i, hi, hfree⟩ := h.free
  obtain rfl := hfound (.inr ⟨i, Nat.zero_le i, by omega, hfree⟩)
  have hctx : allFrom (checkCtx s) s.ctxUsed 0 = .ok true := by
    apply allFrom_of_forall
    intro j _ hj
    obtain ⟨e, he, hlen, hchain⟩ := h.ctx j (by omega)
    rw [checkCtx, he, ok_bind]
    refine congrArg Except.ok (entryOk_of hlen fun k hk => h.below j (by omega) k ?_)
    generalize chain j = l at hchain
    rw [hk] at hchain
    cases hchain
    exact List.mem_cons_self
  have hpool : allFrom (checkEntry s) s.poolUsed 0 = .ok true := by
    apply allFrom_of_forall
    intro j _ hj
    obtain ⟨e, he, hlen, hnext⟩ := h.entry j (by omega)
    rw [checkEntry, he, ok_bind]
    exact congrArg Except.ok (entryOk_of hlen hnext)
  have hmarks : Bt.markChains s s.ctxUsed 0 (fun _ => false) = .ok true :=
    h.markChains (i := 0) (by omega) fun _ _ _ _ _ => rfl
  simp only [Bt.btV3Validate, hbuild, Bool.not_true, Bool.false_eq_true, if_false, if_neg hslots,
    hrun, hctx, hpool, ok_bind]
  split_ifs
  · rfl
  · exact hmarks

end Bcb.Bt
