import Bcb.Bt.Distribution
import Bcb.Bt.Lookups

namespace Bcb.Bt

open Lib

/-- What the distribution takes from an entry of a chain. -/
def BtEntry.seen (e : BtEntry) : UInt8 × UInt32 := (e.nextByte, e.freq)

/-- Chains that count the same bytes alike. -/
def SameChain (l l' : List BtEntry) : Prop := l.map BtEntry.seen = l'.map BtEntry.seen

/-- Active contexts that the distribution cannot tell apart. -/
def SameActive (x y : CtxEntry × List BtEntry) : Prop :=
  x.1.totalFreq = y.1.totalFreq ∧ SameChain x.2 y.2

/-- Entries that a lookup cannot tell apart: the link of an entry counts for its chain only. -/
structure SameEntry (r r' : BtV3Reader) (e e' : CtxEntry) : Prop where
  ctx : e.ctx = e'.ctx
  ctxLen : e.ctxLen = e'.ctxLen
  total : e.totalFreq = e'.totalFreq
  chain : Alike SameChain (nextBytes r e) (nextBytes r' e')

/-- The tables agree on the slots that 32-bit indices reach, on the filter, and on the entries
that these slots lead to. -/
structure Agree (B : Build) (r r' : BtV3Reader) : Prop where
  mask : r.ctxMask = r'.ctxMask
  window : r.window = r'.window
  slot : ∀ i ≤ r.ctxMask, i < 2 ^ 32 → r.ctxSlot i = r'.ctxSlot i
  bloom : ∀ i < B.bloomBits / 8, r.bloom i = r'.bloom i
  entry : ∀ i ≤ r.ctxMask, i < 2 ^ 32 → ∀ v, r.ctxSlot i = .ok v → ∀ k, link v = some k →
    Alike (SameEntry r r') (r.ctxPool k) (r'.ctxPool k)

variable {B : Build} {r r' : BtV3Reader}

theorem bloomChkRd_congr {bloom bloom' : Nat → Outcome UInt8}
    (h : ∀ i < B.bloomBits / 8, bloom i = bloom' i) (ctx : List UInt8) :
    bloomChkRd B bloom ctx = bloomChkRd B bloom' ctx := by
  have hbit : ∀ ch, bloomBit B bloom ch = bloomBit B bloom' ch := by
    intro ch
    rw [bloomBit, bloomBit, h _ (bloomIndex_lt B ch)]
  simp only [bloomChkRd, hbit]

theorem nextSlot_iterate_le {mask i : Nat} (hi : i ≤ mask) (k : Nat) :
    (nextSlot mask)^[k] i ≤ mask := by
  cases k with
  | zero => exact hi
  | succ k =>
    rw [Function.iterate_succ_apply']
    exact Nat.and_le_right

theorem nextSlot_iterate_lt {mask i : Nat} (hi : i < 2 ^ 32) (k : Nat) :
    (nextSlot mask)^[k] i < 2 ^ 32 := by
  cases k with
  | zero => exact hi
  | succ k =>
    rw [Function.iterate_succ_apply']
    exact Nat.and_le_left.trans_lt (Nat.mod_lt _ (by norm_num))

theorem SameChain.actFreq {l l' : List BtEntry} (h : SameChain l l') : actFreq l = actFreq l' := by
  have hfold : ∀ l : List BtEntry, Bt.actFreq l =
      (l.map BtEntry.seen).foldl (fun f x => Function.update f x.1 x.2) (fun _ => 0) := by
    intro l
    rw [List.foldl_map]
    rfl
  rw [hfold, hfold, h]

theorem SameChain.observe {l l' : List BtEntry} (h : SameChain l l') (obs : List UInt8) :
    observe obs l = observe obs l' := by
  have hfold : ∀ l : List BtEntry, Bt.observe obs l = (l.map BtEntry.seen).foldl
      (fun obs x => if x.1 ∈ obs then obs else obs ++ [x.1]) obs := by
    intro l
    rw [List.foldl_map]
    rfl
  rw [hfold, hfold, h]

theorem alike_probe {α β : Type} {R : α → β → Prop} {next : Nat → Nat}
    {test : Nat → Outcome (Option α)} {test' : Nat → Outcome (Option β)} {n i : Nat}
    (h : ∀ k < n, Alike (Option.Rel R) (test (next^[k] i)) (test' (next^[k] i))) :
    Alike R (Probe.run .diverge next test n i) (Probe.run .diverge next test' n i) := by
  induction n generalizing i with
  | zero => exact .error _
  | succ n ih =>
    have h0 : Alike (Option.Rel R) (test i) (test' i) := h 0 (Nat.succ_pos n)
    rw [Probe.run, Probe.run]
    apply h0.bind
    rintro _ _ (⟨hab⟩ | _)
    · exact .ok hab
    · exact ih fun k hk => h (k + 1) (Nat.succ_lt_succ hk)

namespace Agree

theorem ctxFindTest (h : Agree B r r') (ctx : List UInt8) {i : Nat} (hi : i ≤ r.ctxMask)
    (h32 : i < 2 ^ 32) : Alike (Option.Rel (Option.Rel (SameEntry r r'))) (ctxFindTest r ctx i)
      (ctxFindTest r' ctx i) := by
  rw [Bt.ctxFindTest, Bt.ctxFindTest, ← h.slot i hi h32]
  apply (Alike.of_eq rfl).with_eq.bind
  rintro v _ ⟨rfl, hv, -⟩
  cases hl : link v with
  | none => exact .ok (.some .none)
  | some k =>
    apply (h.entry i hi h32 v hv k hl).bind
    intro e e' he
    have hsame : sameCtx e.ctx e.ctxLen ctx = sameCtx e'.ctx e'.ctxLen ctx := by
      rw [he.ctx, he.ctxLen]
    rw [hsame]
    split_ifs
    · exact .ok (.some (.some he))
    · exact .ok .none

theorem ctxFindRd (h : Agree B r r') (ctx : List UInt8) (ch : UInt32) :
    Alike (Option.Rel (SameEntry r r')) (ctxFindRd r ctx ch) (ctxFindRd r' ctx ch) := by
  rw [Bt.ctxFindRd, Bt.ctxFindRd, ← h.mask]
  apply alike_probe
  intro k _
  exact h.ctxFindTest ctx (nextSlot_iterate_le Nat.and_le_right k)
    (nextSlot_iterate_lt (Nat.and_le_left.trans_lt ch.toNat_lt) k)

theorem activeAt (h : Agree B r r') (n : Nat) :
    Alike (Option.Rel SameActive) (activeAt B r n) (activeAt B r' n) := by
  simp only [Bt.activeAt]
  rw [← h.window, ← bloomChkRd_congr h.bloom]
  apply (Alike.of_eq rfl).bind
  rintro hit _ rfl
  cases hit with
  | false => exact .ok .none
  | true =>
    apply (h.ctxFindRd _ _).bind
    rintro _ _ (⟨he⟩ | _)
    · dsimp only
      rw [he.total]
      split_ifs
      · exact .ok .none
      · exact he.chain.bind fun l l' hl => .ok (.some ⟨he.total, hl⟩)
    · exact .ok .none

end Agree

theorem act_congr {luts : Bool} {n : Nat} {total : UInt32} {l l' : List BtEntry}
    (h : SameChain l l') : act B luts n total l = act B luts n total l' := by
  simp only [act, h.actFreq]

theorem scanLevel_congr {luts : Bool}
    (h : ∀ n, Alike (Option.Rel SameActive) (activeAt B r n) (activeAt B r' n)) (ns : List Nat)
    (st : List Act × List UInt8) : scanLevel B luts r ns st = scanLevel B luts r' ns st := by
  induction ns generalizing st with
  | nil => rfl
  | cons n ns ih =>
    obtain ⟨acts, obs⟩ := st
    rw [scanLevel, scanLevel]
    apply Alike.eq
    apply (h n).bind
    rintro _ _ (⟨htotal, hchain⟩ | _)
    · dsimp only
      rw [htotal, act_congr hchain, hchain.observe]
      exact (Alike.of_eq rfl).bind fun a _ ha => ha ▸ .of_eq (ih _)
    · exact .of_eq (ih _)

/-- The distribution depends on the window and on the counts that the lookups find. -/
theorem btV3DistributionR_congr (hw : r.window = r'.window)
    (h : ∀ n, Alike (Option.Rel SameActive) (activeAt B r n) (activeAt B r' n)) (luts : Bool)
    (scale : Nat) : btV3DistributionR B luts r scale = btV3DistributionR B luts r' scale := by
  have hlevel : distLevel B luts r = distLevel B luts r' := by
    funext s lv
    rw [distLevel, distLevel, hw]
    simp only [scanLevel_congr h]
  have hprobs : probs B luts r = probs B luts r' := by
    rw [probs, probs, hw, hlevel]
  rw [btV3DistributionR, btV3DistributionR, hprobs]

theorem Agree.distribution (h : Agree B r r') (luts : Bool) (scale : Nat) :
    btV3DistributionR B luts r scale = btV3DistributionR B luts r' scale :=
  btV3DistributionR_congr h.window h.activeAt luts scale

theorem nextBytes_congr {npool : Nat} (hpool : ∀ i < npool, r.pool i = r'.pool i)
    (hnext : ∀ i < npool, ∀ e, r.pool i = .ok e → ∀ k, link e.ctxNext = some k → k < npool)
    {e : CtxEntry} (hfirst : ∀ k, link e.firstEntry = some k → k < npool) :
    nextBytes r e = nextBytes r' e :=
  walk_congr (p := (· < npool)) hpool (fun i e hi => hnext i hi e) _ hfirst

theorem agree_of_eq (nctx npool : Nat) (hmask : r.ctxMask = r'.ctxMask)
    (hwindow : r.window = r'.window)
    (hslot : ∀ i ≤ r.ctxMask, i < 2 ^ 32 → r.ctxSlot i = r'.ctxSlot i)
    (hbloom : ∀ i < B.bloomBits / 8, r.bloom i = r'.bloom i)
    (hctx : ∀ i < nctx, r.ctxPool i = r'.ctxPool i) (hpool : ∀ i < npool, r.pool i = r'.pool i)
    (hlink : ∀ i ≤ r.ctxMask, ∀ v, r.ctxSlot i = .ok v → ∀ k, link v = some k → k < nctx)
    (hfirst : ∀ i < nctx, ∀ e, r.ctxPool i = .ok e → ∀ k, link e.firstEntry = some k → k < npool)
    (hnext : ∀ i < npool, ∀ e, r.pool i = .ok e → ∀ k, link e.ctxNext = some k → k < npool) :
    Agree B r r' where
  mask := hmask
  window := hwindow
  slot := hslot
  bloom := hbloom
  entry i hi _ v hv k hk := by
    have hlt := hlink i hi v hv k hk
    apply (Alike.of_eq (hctx k hlt)).with_eq.mono
    rintro e _ ⟨rfl, he, -⟩
    refine ⟨rfl, rfl, rfl, ?_⟩
    rw [← nextBytes_congr hpool hnext (hfirst k hlt e he)]
    exact Alike.refl (R := SameChain) (fun _ => rfl) _

end Bcb.Bt
