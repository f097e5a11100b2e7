import Bcb.Codec.Marks

namespace Bcb.Codec

open Lib RangeCoder Bt Prior

variable {B : Build} {im : Image} {p : BcbPrior} {h : BcbpHeader} {f f' : Filling} {s : Region}

theorem Accepted.region_le (ha : Accepted B h im) (hs : s.len h ≠ 0) :
    s.off h + s.len h ≤ im.len := by
  have hb := ha.bounds
  cases s with
  | pool =>
    have hpool := hb.pool
    rw [ha.btEntrySz, Nat.mul_comm] at hpool
    exact hpool
  | ctxPool =>
    have hctx := hb.ctxPool
    rw [ha.ctxEntrySz, Nat.mul_comm] at hctx
    exact hctx
  | ctxSlot =>
    have hslot := hb.ctxSlot
    rw [Nat.mul_comm] at hslot
    exact hslot
  | bloom =>
    rw [Region.len, Region.size, Nat.one_mul]
    exact hb.bloom
  | lmCtx =>
    obtain ⟨-, -, hctx, -⟩ := hb.lm (Nat.mul_ne_zero_iff.1 hs).2
    rw [Nat.mul_comm] at hctx
    exact hctx
  | lmCum =>
    obtain ⟨-, -, -, hcum⟩ := hb.lm (Nat.mul_ne_zero_iff.1 hs).2
    rw [Nat.mul_comm] at hcum
    exact hcum
  | schemaModes =>
    have hrec : h.schemaRec ≠ 0 := fun h0 => hs (by simp [Region.len, Region.count, h0])
    obtain ⟨-, -, hmodes, -⟩ := hb.schema hrec
    rw [Region.len, Region.count, if_neg hrec, Region.size, Nat.one_mul]
    exact hmodes
  | schemaCum =>
    have hrec : h.schemaRec ≠ 0 := fun h0 => hs (by simp [Region.len, Region.count, h0])
    obtain ⟨-, -, -, hcum⟩ := hb.schema hrec
    rw [Nat.mul_comm] at hcum
    rw [Region.len, Region.count, if_neg hrec]
    exact hcum

theorem priorParse_filling (hp : priorParse B im = .ok (some p)) (ha : LaidApart (header im))
    (hf : f.Tame (header im)) : ∃ slot mask, priorParse B (f.image (header im) im) =
      .ok (some (priorOf (f.image (header im) im) (header im) slot mask)) := by
  have hacc := accepted_of_priorParse hp
  have hle := priorParse_headerSize_le hp
  obtain ⟨hok, -⟩ := priorParse_some hp
  have hheader := Filling.image_header (f := f) ha hle
  have hlen : (f.image (header im) im).len = im.len := rfl
  obtain ⟨chain, hchain⟩ := hf.acceptable ha (fun s hs => hacc.region_le hs) hacc.validated.pow
  have hvalid := hchain.btV3Validate (B := B) hacc.checks.sameBuild
  have hbounds : HeaderBounds (header im) (f.image (header im) im).len := headerOk_bounds hok
  obtain ⟨slot, mask, hindex⟩ := lmBuildIndex_total (fun k hk => lmCtxAt_ok hbounds hk)
    (Nat.mod_lt _ (by norm_num))
  refine ⟨slot, mask, ?_⟩
  rw [← hlen] at hle hok
  simp only [priorParse, if_neg (Nat.not_lt_of_le hle), hheader, hok, Bool.not_true,
    Bool.false_eq_true, if_false, hvalid, hindex, ok_bind]
  rfl

theorem DifferAt.sameHashed (hd : DifferAt (header im) s f f') (ha : LaidApart (header im))
    (hlen : headerSize ≤ im.len)
    (hout : covered (header im) < s.off (header im) + reach (header im) s) :
    SameHashed (f.image (header im) im) (f'.image (header im) im) := by
  obtain ⟨m, j, hj, hrec, hm⟩ := hd
  refine ⟨(Filling.image_header ha hlen).trans (Filling.image_header ha hlen).symm, fun i hi => ?_⟩
  rw [Filling.image_header ha hlen] at hi
  have hfile : (header im).fileSize ≤ covered (header im) := le_max_right _ _
  exact Filling.byteAt_congr hrec hm (by omega)

namespace Marks

/-- Indices in bounds, a free slot, and no way back from the first entry. -/
structure Fit (h : BcbpHeader) (x : Marks) : Prop where
  slot : Ref h.ctxUsed x.slot
  found : link x.slot = none ∨ x.slot = lastCtx h ∧ 2 ≤ h.ctxNslots
  first : Ref h.poolUsed x.first
  next : Ref 1 x.next

variable {x : Marks}

theorem ref_negative (n : Nat) {k : Nat} (hk : k < 2 ^ 31) : Ref n (k - 2 ^ 31 : Int) := by
  refine ⟨by omega, by omega, fun i hi => ?_⟩
  rw [link, if_pos (by omega)] at hi
  cases hi

theorem ref_index {n k : Nat} (hk : k < n) (h31 : k < 2 ^ 31) : Ref n k := by
  refine ⟨by omega, by omega, fun i hi => ?_⟩
  rw [link, if_neg (by omega), Int.toNat_natCast] at hi
  exact Option.some.inj hi ▸ hk

theorem lastCtx_lt (h : BcbpHeader) : lastCtx h < 2 ^ 31 := by
  rw [lastCtx]
  omega

theorem lastEntry_lt (h : BcbpHeader) : lastEntry h < 2 ^ 31 := by
  rw [lastEntry]
  omega

theorem fit_shown : (shown h).Fit h := by
  constructor
  · dsimp only [shown]
    split_ifs with hfind
    · apply ref_index _ (lastCtx_lt h)
      rw [lastCtx]
      omega
    · exact .empty _
  · dsimp only [shown]
    split_ifs with hfind
    · exact .inr ⟨rfl, hfind.1⟩
    · exact .inl rfl
  · dsimp only [shown]
    split_ifs with h0
    · exact .empty _
    · apply ref_index _ (lastEntry_lt h)
      rw [lastEntry]
      omega
  · exact ref_index Nat.one_pos (by decide)

theorem fit_hidden (s : Region) : (hidden h s).Fit h := by
  have hfit : (shown h).Fit h := fit_shown
  cases s with
  | pool =>
    rw [hidden]
    split_ifs
    · exact ⟨hfit.slot, hfit.found, hfit.first, hfit.next⟩
    · exact ⟨hfit.slot, hfit.found, hfit.first, ref_negative 1 (k := 0) (by decide)⟩
  | ctxPool =>
    rw [hidden]
    split_ifs
    · exact ⟨hfit.slot, hfit.found, hfit.first, hfit.next⟩
    · exact ⟨hfit.slot, hfit.found, ref_negative _ (lastEntry_lt h), hfit.next⟩
  | ctxSlot =>
    refine ⟨ref_negative _ (lastCtx_lt h), .inl ?_, hfit.first, hfit.next⟩
    have hlt := lastCtx_lt h
    have hneg : (lastCtx h - 2 ^ 31 : Int) < 0 := by omega
    exact if_pos hneg
  | bloom => exact ⟨hfit.slot, hfit.found, hfit.first, hfit.next⟩
  | lmCtx => exact ⟨hfit.slot, hfit.found, hfit.first, hfit.next⟩
  | lmCum => exact ⟨hfit.slot, hfit.found, hfit.first, hfit.next⟩
  | schemaModes => exact ⟨hfit.slot, hfit.found, hfit.first, hfit.next⟩
  | schemaCum => exact ⟨hfit.slot, hfit.found, hfit.first, hfit.next⟩

theorem Fit.tame (hx : x.Fit h) (hslots : 0 < h.ctxNslots) : (x.filling h).Tame h := by
  constructor
  · intro k _
    dsimp only [filling]
    split_ifs
    · exact hx.slot
    · exact .empty _
  · rcases hx.found with hnone | ⟨-, h2⟩
    · by_cases h0 : lastSlot h = 0
      · exact ⟨0, hslots, (congrArg link (if_pos h0.symm)).trans hnone⟩
      · exact ⟨0, hslots, congrArg link (if_neg fun h => h0 h.symm)⟩
    · have hne : 0 ≠ lastSlot h := by
        rw [lastSlot]
        omega
      exact ⟨0, hslots, congrArg link (if_neg hne)⟩
  · intro k _
    dsimp only [filling]
    split_ifs
    · exact Nat.le_of_ble_eq_true rfl
    · exact Nat.zero_le _
  · intro k _
    dsimp only [filling]
    split_ifs
    · exact hx.first
    · exact .empty _
  · intro k k' hk hk'
    have hlast : ∀ {k}, (link ((x.filling h).ctxPool k).firstEntry).isSome → k = lastCtx h := by
      intro k hk
      dsimp only [filling] at hk
      split_ifs at hk with heq
      · exact heq
      · cases hk
    rw [hlast hk, hlast hk']
  · exact fun k _ => Nat.zero_le _
  · intro k hk
    dsimp only [filling]
    split_ifs
    · exact hx.next.mono (by omega)
    · exact .empty _
  · intro k j hj
    dsimp only [filling] at hj
    split_ifs at hj with hk
    · have hlt := hx.next.below j hj
      omega
    · cases hj

end Marks

end Bcb.Codec
