import Bcb.Lib.OpenAddr
import Bcb.Prior.Parse

namespace Bcb.Prior

open Lib Bt

theorem lmNslots_spec {k : Nat} (h : k < 2 ^ 32) : ∃ j, lmNslots k = 2 ^ j ∧ k * 2 ≤ 2 ^ j := by
  let step : Nat → Option Nat := fun ns => if ns < k * 2 then some (2 * ns) else none
  have hpow : ∃ j, Loop.run step 33 1 = 2 ^ j := by
    refine Loop.run_inv (P := fun ns => ∃ j, ns = 2 ^ j) ?_ 33 ⟨0, rfl⟩
    rintro _ b ⟨j, rfl⟩ hb
    simp only [step] at hb
    split_ifs at hb
    exact ⟨j + 1, by rw [← Option.some.inj hb, pow_succ]; ring⟩
  have hdone : step (Loop.run step 33 1) = none := by
    refine Loop.run_done (P := fun i ns => 2 ^ i ≤ ns) (m := 33) ?_ ?_ (Nat.zero_add 33) le_rfl
    · intro i a b ha hb
      simp only [step] at hb
      split_ifs at hb
      rw [← Option.some.inj hb, pow_succ]
      omega
    · intro a ha
      simp only [step]
      rw [if_neg (by omega)]
  obtain ⟨j, hj⟩ := hpow
  refine ⟨j, hj, ?_⟩
  rw [hj] at hdone
  by_contra hlt
  simp [step, Nat.lt_of_not_le hlt] at hdone

theorem lmNext_eq (j : Nat) : lmNext (2 ^ j - 1) = Probe.linear (2 ^ j) := by
  funext h
  rw [lmNext, Nat.and_two_pow_sub_one_eq_mod]
  rfl

/-- The home slot of a landmark. -/
def lmHome (ctx : Nat → List UInt8) (N i : Nat) : Nat := (hashN (ctx i)).toNat % N

/-- The slots after the first `m` landmarks: those whose index is no `int` left no trace. -/
def LmFilled (N : Nat) (ctx : Nat → List UInt8) (slot : Nat → Int) (m : Nat) : Prop :=
  ∃ dist, OpenAddr.Filled N (link ∘ slot) (lmHome ctx N) dist (min m (2 ^ 31))

variable {lmCtx : Nat → Outcome (List UInt8)} {ctx : Nat → List UInt8} {j m : Nat}
  {slot : Nat → Int} {dist : Nat → Nat}

theorem lmFreeSlot_eq (h : OpenAddr.Filled (2 ^ j) (link ∘ slot) (lmHome ctx (2 ^ j)) dist m)
    (hm : m < 2 ^ j) {h0 : Nat} (hh0 : h0 < 2 ^ j) :
    ∃ d < 2 ^ j, lmFreeSlot slot (2 ^ j - 1) h0 = .ok ((Probe.linear (2 ^ j))^[d] h0) ∧
      (link ∘ slot) ((Probe.linear (2 ^ j))^[d] h0) = none ∧
      ∀ k < d, (link ∘ slot) ((Probe.linear (2 ^ j))^[k] h0) ≠ none := by
  obtain ⟨d, hd, hfree, hpath⟩ := h.free hm hh0
  refine ⟨d, hd, ?_, hfree, hpath⟩
  have hlink : ∀ s, (link ∘ slot) s = none ↔ ¬ 0 ≤ slot s := by
    intro s
    simp [link]
  rw [lmFreeSlot, lmNext_eq, Nat.sub_add_cancel Nat.one_le_two_pow]
  apply Probe.run_first hd
  · intro k hk
    rw [if_pos (not_not.1 ((hlink _).not.1 (hpath k hk)))]
    rfl
  · rw [if_neg ((hlink _).1 hfree)]
    rfl

theorem lmInsert_spec (h : LmFilled (2 ^ j) ctx slot m) (hctx : lmCtx m = .ok (ctx m))
    (hm : m < 2 ^ 32) (hj : m < 2 ^ j) :
    ∃ slot', lmInsert lmCtx (2 ^ j - 1) slot m = .ok slot' ∧ LmFilled (2 ^ j) ctx slot' (m + 1) := by
  obtain ⟨dist, hF⟩ := h
  have hhome : lmHome ctx (2 ^ j) m < 2 ^ j := Nat.mod_lt _ (Nat.two_pow_pos j)
  obtain ⟨d, hd, hrun, hfree, hpath⟩ := lmFreeSlot_eq hF (by omega) hhome
  refine ⟨Function.update slot ((Probe.linear (2 ^ j))^[d] (lmHome ctx (2 ^ j) m)) (toInt32 m),
    ?_, ?_⟩
  · rw [lmInsert, hctx, ok_bind, Nat.and_two_pow_sub_one_eq_mod]
    change (lmFreeSlot slot (2 ^ j - 1) (lmHome ctx (2 ^ j) m) >>= _) = _
    rw [hrun]
    rfl
  · rw [LmFilled, Function.comp_update, link_toInt32 hm]
    split_ifs with hint
    · have hmin : min m (2 ^ 31) = m := by omega
      have hmin' : min (m + 1) (2 ^ 31) = m + 1 := by omega
      rw [hmin] at hF
      rw [hmin']
      exact ⟨_, hF.insert hhome hd hfree hpath⟩
    · have hmin : min (m + 1) (2 ^ 31) = min m (2 ^ 31) := by omega
      rw [hmin, ← hfree, Function.update_eq_self]
      exact ⟨dist, hF⟩

theorem lmInsert_range (k : Nat) (hctx : ∀ i < k, lmCtx i = .ok (ctx i)) (hk : k < 2 ^ 32)
    (hj : k ≤ 2 ^ j) : ∃ slot, (List.range k).foldlM (lmInsert lmCtx (2 ^ j - 1)) (fun _ => -1) =
      .ok slot ∧ LmFilled (2 ^ j) ctx slot k := by
  induction k with
  | zero => exact ⟨_, rfl, fun _ => 0, OpenAddr.Filled.empty _ _ _⟩
  | succ k ih =>
    obtain ⟨slot, hrun, hF⟩ := ih (fun i hi => hctx i (Nat.lt_succ_of_lt hi)) (by omega) (by omega)
    obtain ⟨slot', hins, hF'⟩ := lmInsert_spec hF (hctx k (Nat.lt_succ_self k)) (by omega) hj
    refine ⟨slot', ?_, hF'⟩
    rw [List.range_succ, List.foldlM_append, hrun, ok_bind, List.foldlM_cons, hins]
    rfl

theorem lmBuildIndex_spec {k : Nat} (hctx : ∀ i < k, lmCtx i = .ok (ctx i)) (hk : k < 2 ^ 32)
    (h0 : k ≠ 0) : ∃ slot j, lmBuildIndex lmCtx k = .ok (slot, 2 ^ j - 1) ∧ k < 2 ^ j ∧
      LmFilled (2 ^ j) ctx slot k := by
  obtain ⟨j, hj, hle⟩ := lmNslots_spec hk
  obtain ⟨slot, hrun, hF⟩ := lmInsert_range (j := j) k hctx hk (by omega)
  refine ⟨slot, j, ?_, by omega, hF⟩
  simp only [lmBuildIndex, if_neg h0, hj, hrun, ok_bind]
  rfl

theorem lmBuildIndex_total {k : Nat} (hctx : ∀ i < k, lmCtx i = .ok (ctx i)) (hk : k < 2 ^ 32) :
    ∃ slot mask, lmBuildIndex lmCtx k = .ok (slot, mask) := by
  by_cases h0 : k = 0
  · exact ⟨fun _ => -1, 0, by rw [lmBuildIndex, if_pos h0]; rfl⟩
  · obtain ⟨slot, j, hrun, -⟩ := lmBuildIndex_spec hctx hk h0
    exact ⟨slot, _, hrun⟩

theorem lmLookup_eq {L : Landmarks} (hctx : ∀ i < L.lmK, L.lmCtx i = .ok (ctx i))
    (hk : L.lmK < 2 ^ 32) (hindex : lmBuildIndex L.lmCtx L.lmK = .ok (L.lmSlot, L.lmMask))
    (c : List UInt8) :
    lmLookup L c = .ok ((List.range (min L.lmK (2 ^ 31))).find? (fun i => ctx i = c)) := by
  by_cases h0 : L.lmK = 0
  · rw [lmLookup, if_pos h0, h0]
    rfl
  · obtain ⟨slot, j, hrun, hkj, dist, hF⟩ := lmBuildIndex_spec hctx hk h0
    rw [hindex] at hrun
    obtain ⟨hslot, hmask⟩ := Prod.mk.inj (Except.ok.inj hrun)
    rw [← hslot] at hF
    rw [lmLookup, if_neg h0, hmask, lmNext_eq, Nat.sub_add_cancel Nat.one_le_two_pow,
      Nat.and_two_pow_sub_one_eq_mod]
    have hlink : ∀ i s, (link ∘ L.lmSlot) s = some i → link (L.lmSlot s) = some i := fun _ _ h => h
    apply hF.find (by omega) (Nat.mod_lt _ (Nat.two_pow_pos j))
    · intro i hi hic
      rw [lmHome, hic]
    · intro s hs hnone
      change link (L.lmSlot s) = none at hnone
      simp only [lmTest, hnone]
      rfl
    · intro s hs i hi hsome hne
      change link (L.lmSlot s) = some i at hsome
      simp only [lmTest, hsome, hctx i (by omega), ok_bind, if_neg hne]
      rfl
    · intro s hs i hi hsome heq
      change link (L.lmSlot s) = some i at hsome
      simp only [lmTest, hsome, hctx i (by omega), ok_bind, if_pos heq]
      rfl

end Bcb.Prior
