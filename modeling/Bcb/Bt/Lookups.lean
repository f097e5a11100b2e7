import Bcb.Bt.Reader
import Bcb.Bt.Validate

namespace Bcb.Bt

open Lib

/-- The entries of a context lie on a chain that ends. -/
def ChainReadable (r : BtV3Reader) (e : CtxEntry) : Prop :=
  ∃ (cell : Nat → BtEntry) (l : List Nat),
    Chain (fun i => link (cell i).ctxNext) (link e.firstEntry) l ∧ l.length ≤ 2 ^ 31 ∧
      ∀ i ∈ l, r.pool i = .ok (cell i)

/-- The tables of a reader are in bounds, with a free slot and chains that end. -/
structure Sound (B : Build) (r : BtV3Reader) : Prop where
  mask : ∃ j ≤ 32, r.ctxMask = 2 ^ j - 1
  slot : ∀ i < r.ctxMask + 1, ∃ v, r.ctxSlot i = .ok v ∧
    ∀ k, link v = some k → ∃ e, r.ctxPool k = .ok e ∧ ChainReadable r e
  free : ∃ i < r.ctxMask + 1, ∃ v, r.ctxSlot i = .ok v ∧ link v = none
  bloom : ∀ i < B.bloomBits / 8, ∃ b, r.bloom i = .ok b

variable {B : Build} {r : BtV3Reader}

theorem nextSlot_min (j : Nat) : nextSlot (2 ^ j - 1) = Probe.linear (2 ^ min j 32) := by
  funext i
  rw [nextSlot, Nat.and_two_pow_sub_one_eq_mod]
  rcases Nat.le_total j 32 with h | h
  · rw [Nat.mod_mod_of_dvd _ (pow_dvd_pow 2 h), Nat.min_eq_left h]
    rfl
  · rw [Nat.min_eq_right h]
    have hlt : (i + 1) % 2 ^ 32 < 2 ^ 32 := Nat.mod_lt _ (Nat.two_pow_pos 32)
    exact Nat.mod_eq_of_lt (hlt.trans_le (Nat.pow_le_pow_right (by decide) h))

theorem nextSlot_eq {j : Nat} (h : j ≤ 32) : nextSlot (2 ^ j - 1) = Probe.linear (2 ^ j) := by
  rw [nextSlot_min, Nat.min_eq_left h]

theorem bloomIndex_lt (B : Build) (ch : UInt32) :
    (ch.toNat &&& B.bloomMask) / 8 < B.bloomBits / 8 := by
  have hlog := B.three_le_bloomLog
  rw [Build.bloomMask, Build.bloomBits, Nat.and_two_pow_sub_one_eq_mod]
  have hmod := Nat.mod_lt ch.toNat (Nat.two_pow_pos B.bloomLog)
  have hpow : 2 ^ B.bloomLog = 8 * 2 ^ (B.bloomLog - 3) := by
    have h8 : (8 : Nat) = 2 ^ 3 := rfl
    rw [h8, ← pow_add, Nat.add_sub_cancel' hlog]
  omega

theorem bloomBit_ok {bloom : Nat → Outcome UInt8}
    (h : ∀ i < B.bloomBits / 8, ∃ b, bloom i = .ok b) (ch : UInt32) :
    ∃ b, bloomBit B bloom ch = .ok b := by
  obtain ⟨b, hb⟩ := h _ (bloomIndex_lt B ch)
  exact ⟨_, by rw [bloomBit, hb]; rfl⟩

theorem bloomChkRd_ok {bloom : Nat → Outcome UInt8}
    (h : ∀ i < B.bloomBits / 8, ∃ b, bloom i = .ok b) (ctx : List UInt8) :
    ∃ b, bloomChkRd B bloom ctx = .ok b := by
  obtain ⟨b1, h1⟩ := bloomBit_ok h (fnv ctx)
  obtain ⟨b2, h2⟩ := bloomBit_ok h (fnv ctx * 2654435761)
  simp only [bloomChkRd, h1, h2, ok_bind]
  cases b1 with
  | false => exact ⟨false, rfl⟩
  | true => exact ⟨b2, rfl⟩

theorem ctxFindTest_ok (h : Sound B r) (ctx : List UInt8) {i : Nat} (hi : i < r.ctxMask + 1) :
    ∃ o, ctxFindTest r ctx i = .ok o ∧
      ∀ e, o = some (some e) → ChainReadable r e ∧ sameCtx e.ctx e.ctxLen ctx = true := by
  obtain ⟨v, hv, hentry⟩ := h.slot i hi
  cases hlink : link v with
  | none =>
    refine ⟨some none, ?_, fun e he => (nomatch he)⟩
    simp only [ctxFindTest, hv, ok_bind, hlink]
    rfl
  | some k =>
    obtain ⟨e, he, hchain⟩ := hentry k hlink
    refine ⟨if sameCtx e.ctx e.ctxLen ctx then some (some e) else none, ?_, ?_⟩
    · simp only [ctxFindTest, hv, ok_bind, hlink, he]
      rfl
    · intro e' he'
      split_ifs at he' with hsame
      cases he'
      exact ⟨hchain, hsame⟩

theorem ctxFindRd_ok (h : Sound B r) (ctx : List UInt8) (ch : UInt32) :
    ∃ o, ctxFindRd r ctx ch = .ok o ∧ ∀ e, o = some e → ChainReadable r e := by
  obtain ⟨j, hj, hmask⟩ := h.mask
  have hsucc : r.ctxMask + 1 = 2 ^ j := by
    rw [hmask, Nat.sub_add_cancel Nat.one_le_two_pow]
  have hhome : ch.toNat &&& r.ctxMask < 2 ^ j := by
    rw [hmask, Nat.and_two_pow_sub_one_eq_mod]
    exact Nat.mod_lt _ (Nat.two_pow_pos j)
  have hreach : ∀ k, (nextSlot r.ctxMask)^[k] (ch.toNat &&& r.ctxMask) < r.ctxMask + 1 := by
    intro k
    rw [hsucc, hmask, nextSlot_eq hj]
    exact Probe.linear_iterate_lt (hmask ▸ hhome) k
  obtain ⟨o, ho⟩ : ∃ o, ctxFindRd r ctx ch = .ok o := by
    apply Probe.run_total
    · intro k _
      obtain ⟨o, ho, -⟩ := ctxFindTest_ok h ctx (hreach k)
      exact ⟨o, ho⟩
    · obtain ⟨i, hi, v, hv, hlink⟩ := h.free
      obtain ⟨k, hk, hik⟩ := Probe.linear_reaches hhome (hsucc ▸ hi)
      refine ⟨k, by omega, none, ?_⟩
      rw [hmask, nextSlot_eq hj, ← hmask, hik]
      simp only [ctxFindTest, hv, ok_bind, hlink]
      rfl
  refine ⟨o, ho, ?_⟩
  rintro e rfl
  obtain ⟨k, -, -, hstop⟩ := Probe.run_eq_ok ho
  obtain ⟨o', ho', hfound⟩ := ctxFindTest_ok h ctx (hreach k)
  exact (hfound e (Except.ok.inj (ho'.symm.trans hstop))).1

theorem nextBytes_ok {e : CtxEntry} (h : ChainReadable r e) : ∃ chain, nextBytes r e = .ok chain := by
  obtain ⟨cell, l, hl, hlen, hread⟩ := h
  refine ⟨l.map cell, Chain.walk_eq ?_ hread (Nat.lt_succ_of_le hlen)⟩
  exact hl

theorem activeAt_ok (h : Sound B r) (n : Nat) : ∃ o, activeAt B r n = .ok o := by
  obtain ⟨b, hb⟩ := bloomChkRd_ok h.bloom (r.window.last n)
  obtain ⟨o, ho, hchain⟩ := ctxFindRd_ok h (r.window.last n) (fnv (r.window.last n))
  simp only [activeAt, hb, ho, ok_bind]
  cases b with
  | false => exact ⟨none, rfl⟩
  | true =>
    cases o with
    | none => exact ⟨none, rfl⟩
    | some cc =>
      obtain ⟨chain, hrun⟩ := nextBytes_ok (hchain cc rfl)
      simp only [hrun, ok_bind]
      by_cases h0 : cc.totalFreq = 0
      · exact ⟨none, by simp [h0, pure, Except.pure]⟩
      · exact ⟨some (cc, chain), by simp [h0, pure, Except.pure]⟩

end Bcb.Bt
