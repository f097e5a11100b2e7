import Bcb.Codec.Memory

namespace Bcb.Codec

open Lib Bt Prior

variable {B : Build} {im : Image} {p : BcbPrior}

theorem priorParse_headerSize_le (hp : priorParse B im = .ok (some p)) : headerSize ≤ im.len := by
  by_contra hlt
  rw [priorParse, if_pos (Nat.lt_of_not_le hlt)] at hp
  cases hp

theorem record_le (size : Nat) {i n : Nat} (h : i + 1 ≤ n) : size * i + size ≤ size * n := by
  rw [← Nat.mul_succ]
  exact Nat.mul_le_mul_left size h

/-- The tables that a header declares, in an accepted image. -/
structure Accepted (B : Build) (h : BcbpHeader) (im : Image) : Prop where
  bounds : HeaderBounds h im.len
  btEntrySz : h.btEntrySz = btEntrySize
  ctxEntrySz : h.ctxEntrySz = ctxEntrySize
  bloomBytes : h.bloomBytes = B.bloomBits / 8
  checks : Checks B (snapshot im h)
  validated : Validated (snapshot im h)

theorem accepted_of_priorParse (hp : priorParse B im = .ok (some p)) :
    Accepted B (header im) im := by
  obtain ⟨hok, hvalid, -⟩ := priorParse_some hp
  have hc := btV3Validate_checks hvalid
  have hbuild := hc.sameBuild
  simp only [BtV3Snapshot.sameBuild, Bool.and_eq_true, decide_eq_true_eq] at hbuild
  obtain ⟨⟨⟨⟨⟨hbt, hctx⟩, -⟩, -⟩, -⟩, hbytes⟩ := hbuild
  exact ⟨headerOk_bounds hok, hbt, hctx, hbytes, hc, (btV3Validate_ok hvalid).2⟩

namespace Accepted

variable {h : BcbpHeader} {k : Nat}

theorem ctxEntry_le (ha : Accepted B h im) (hk : k < h.ctxUsed) :
    h.offCtxPool + ctxEntrySize * k + ctxEntrySize ≤ im.len := by
  have hbound := ha.bounds.ctxPool
  have hle := record_le ctxEntrySize hk
  rw [ha.ctxEntrySz, Nat.mul_comm] at hbound
  omega

theorem btEntry_le (ha : Accepted B h im) (hk : k < h.poolUsed) :
    h.offPool + btEntrySize * k + btEntrySize ≤ im.len := by
  have hbound := ha.bounds.pool
  have hle := record_le btEntrySize hk
  rw [ha.btEntrySz, Nat.mul_comm] at hbound
  omega

theorem ctxPool (ha : Accepted B h im) (hk : k < h.ctxUsed) :
    (snapshot im h).ctxPool k = .ok (ctxEntryAt im (h.offCtxPool + ctxEntrySize * k)) := by
  change readCtxEntry im _ = _
  rw [readCtxEntry, im.region_ok (ha.ctxEntry_le hk)]
  rfl

theorem pool (ha : Accepted B h im) (hk : k < h.poolUsed) :
    (snapshot im h).pool k = .ok (btEntryAt im (h.offPool + btEntrySize * k)) := by
  change readBtEntry im _ = _
  rw [readBtEntry, im.region_ok (ha.btEntry_le hk)]
  rfl

variable {slot : Nat → Int} {mask : Nat} {w : Window}

theorem mask_eq (ha : Accepted B h im) :
    (reader (priorOf im h slot mask) w).ctxMask = h.ctxNslots - 1 :=
  if_neg fun h0 => ha.checks.slots (.inl h0)

theorem nslots_pos (ha : Accepted B h im) : 0 < h.ctxNslots :=
  Nat.pos_of_ne_zero fun h0 => ha.checks.slots (.inl h0)

theorem next_lt (ha : Accepted B h im) {i : Nat} (hi : i < h.poolUsed) (j : Nat)
    (hj : (snapshot im h).next i = some j) : j < h.poolUsed := by
  obtain ⟨x, hx, hnext⟩ := checkEntry_ok (ha.checks.checkEntry i hi)
  rw [BtV3Snapshot.next, BtV3Snapshot.cell_eq hx] at hj
  exact hnext j hj

theorem first_lt (ha : Accepted B h im) (hk : k < h.ctxUsed) (j : Nat)
    (hj : link (ctxEntryAt im (h.offCtxPool + ctxEntrySize * k)).firstEntry = some j) :
    j < h.poolUsed := by
  obtain ⟨e, he, hfirst⟩ := checkCtx_ok (ha.checks.checkCtx k hk)
  obtain rfl := Except.ok.inj ((ha.ctxPool hk).symm.trans he)
  exact hfirst j hj

theorem nextBytes (ha : Accepted B h im) (hk : k < h.ctxUsed) (slot : Nat → Int) (mask : Nat)
    (w : Window) :
    ∃ l, Chain (snapshot im h).next
        (link (ctxEntryAt im (h.offCtxPool + ctxEntrySize * k)).firstEntry) l ∧
      (∀ j ∈ l, j < h.poolUsed ∧ j < 2 ^ 31) ∧
      nextBytes (reader (priorOf im h slot mask) w)
          (ctxEntryAt im (h.offCtxPool + ctxEntrySize * k)) =
        .ok (l.map (snapshot im h).cell) := by
  obtain ⟨e, he, l, hl, hread⟩ := ha.validated.ctx k hk
  obtain rfl := Except.ok.inj ((ha.ctxPool hk).symm.trans he)
  have hused := hl.mem_lt (ha.first_lt hk) fun i _ hi => ha.next_lt hi
  have h31 : ∀ j ∈ l, j < 2 ^ 31 :=
    hl.mem_lt (fun j hj => link_lt (im.i32_lt _) hj) fun i hi _ j hj =>
      link_lt (readBtEntry_ctxNext (hread i hi)) hj
  refine ⟨l, hl, fun j hj => ⟨hused j hj, h31 j hj⟩,
    Chain.walk_eq ?_ hread (Nat.lt_succ_of_le (hl.length_le h31))⟩
  exact hl

theorem activeAt_none (ha : Accepted B h im) (hn : h.ctxUsed = 0 ∨ h.ctxNslots < 2) (n : Nat) :
    activeAt B (reader (priorOf im h slot mask) w) n = .ok none := by
  have hbound := ha.bounds.bloom
  rw [ha.bloomBytes] at hbound
  obtain ⟨b, hb⟩ : ∃ b, bloomChkRd B (reader (priorOf im h slot mask) w).bloom (w.last n) = .ok b :=
    bloomChkRd_ok (fun i hi => readByte_of_lt hbound hi) (w.last n)
  have hfind : ctxFindRd (reader (priorOf im h slot mask) w) (w.last n) (fnv (w.last n)) =
      .ok none := by
    apply Probe.run_stop
    have hpos := ha.nslots_pos
    have hhome : (fnv (w.last n)).toNat &&& (reader (priorOf im h slot mask) w).ctxMask <
        h.ctxNslots := by
      have hle : (fnv (w.last n)).toNat &&& (reader (priorOf im h slot mask) w).ctxMask ≤ _ :=
        Nat.and_le_right
      rw [ha.mask_eq] at hle ⊢
      omega
    obtain ⟨v, hv, hlink⟩ := ha.validated.slot _ hhome
    have hnone : link v = none := by
      rcases hn with h0 | h1
      · cases hl : link v with
        | none => rfl
        | some k =>
          have hlt : k < h.ctxUsed := hlink k hl
          omega
      · obtain ⟨i, hi, v', hv', hfree⟩ := ha.validated.free
        change i < h.ctxNslots at hi
        obtain rfl : i = (fnv (w.last n)).toNat &&& (reader (priorOf im h slot mask) w).ctxMask := by
          omega
        obtain rfl := Except.ok.inj (hv.symm.trans hv')
        exact hfree
    have hread : (reader (priorOf im h slot mask) w).ctxSlot _ = .ok v := hv
    rw [ctxFindTest, hread, ok_bind, hnone]
    rfl
  have hwindow : (reader (priorOf im h slot mask) w).window = w := rfl
  rw [activeAt, hwindow, hb, ok_bind]
  cases b with
  | false => rfl
  | true =>
    simp only [Bool.not_true, Bool.false_eq_true, if_false, hfind]
    rfl

end Accepted

end Bcb.Codec
