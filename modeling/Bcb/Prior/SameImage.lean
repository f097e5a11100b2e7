import Bcb.Bt.Leftover
import Bcb.Prior.SaveLoad

/-! `bt_v3_init`, a training and `bcb_prior_save`: the file holds what the memory of the pools
held before, beyond the contexts of the entries and between their fields. -/

namespace Bcb.Prior

open Lib Layout Bt

/-- What the memory of the pools holds before `bt_v3_init`. -/
structure PoolMemory where
  pool : Nat → BtEntry
  ctxPool : Nat → CtxEntry
  padding : Padding

/-- Another memory: no byte of a context is the same. -/
def PoolMemory.other (M : PoolMemory) : PoolMemory :=
  { M with pool := fun i => { M.pool i with ctx := fun k => (M.pool i).ctx k + 1 } }

/-- PoolMemory that is all zero. -/
def PoolMemory.blank : PoolMemory where
  pool _ := blankBt
  ctxPool _ := blankCtx
  padding := ⟨fun _ _ => 0, fun _ _ => 0⟩

/-- `bt_v3_init`, `bt_v3_train` for every byte, and `bcb_prior_save`. -/
def trainedImage (B : Build) (al : Nat → Nat → UpdateAlloc) (r : Registered) (s : List UInt8)
    (M : PoolMemory) : Outcome (Option (List UInt8)) := do
  let g ← btV3TrainAll B al s (btV3Init B M.pool M.ctxPool)
  return bcbPriorSave B M.padding r g

/-- Two memories that agree where a training has left them as they were. -/
structure SameLeft (g : Globals) (M M' : PoolMemory) : Prop where
  btPad : ∀ i < g.bt.used, M.padding.bt i = M'.padding.bt i
  btCtx : ∀ i < g.bt.used, ∀ k : Fin Bcb.btMaxDepth,
    (g.bt.pool i).ctxLen.toNat ≤ k → (M.pool i).ctx k = (M'.pool i).ctx k
  ctxPad : ∀ i < g.ctx.used, M.padding.ctx i = M'.padding.ctx i
  ctxCtx : ∀ i < g.ctx.used, ∀ k : Fin Bcb.btMaxDepth,
    (g.ctx.pool i).ctxLen.toNat ≤ k → (M.ctxPool i).ctx k = (M'.ctxPool i).ctx k

section Bytes

variable {im : Image} {off : Nat} {l l' : List UInt8}

theorem Holds.unique (h : Holds im off l) (h' : Holds im off l') (hlen : l.length = l'.length) :
    l = l' := by
  apply List.ext_getElem hlen
  intro i hi hi'
  rw [← h i hi, ← h' i hi']

theorem btEntryBytes_inj {pad pad' : Fin 2 → UInt8} {e e' : BtEntry}
    (h : btEntryBytes pad e = btEntryBytes pad' e') : pad = pad' ∧ e.ctx = e'.ctx := by
  obtain ⟨hctx, h⟩ := List.append_inj h (by rw [List.length_ofFn, List.length_ofFn])
  obtain ⟨-, h⟩ := List.append_inj h rfl
  obtain ⟨hpad, -⟩ := List.append_inj h (by rw [List.length_ofFn, List.length_ofFn])
  exact ⟨List.ofFn_injective hpad, List.ofFn_injective hctx⟩

theorem ctxEntryBytes_inj {pad pad' : Fin 3 → UInt8} {e e' : CtxEntry}
    (h : ctxEntryBytes pad e = ctxEntryBytes pad' e') : pad = pad' ∧ e.ctx = e'.ctx := by
  obtain ⟨hctx, h⟩ := List.append_inj h (by rw [List.length_ofFn, List.length_ofFn])
  obtain ⟨-, h⟩ := List.append_inj h rfl
  obtain ⟨hpad, -⟩ := List.append_inj h (by rw [List.length_ofFn, List.length_ofFn])
  exact ⟨List.ofFn_injective hpad, List.ofFn_injective hctx⟩

theorem ctx_ext {c c' : Fin Bcb.btMaxDepth → UInt8} {len : UInt8}
    (h : ctxBytes c len = ctxBytes c' len)
    (hleft : ∀ k : Fin Bcb.btMaxDepth, len.toNat ≤ k → c k = c' k) : c = c' := by
  funext k
  by_cases hk : len.toNat ≤ k
  · exact hleft k hk
  · have hget := congrArg (fun l => l[k.val]?) h
    simp only [ctxBytes, List.getElem?_take, if_pos (not_le.1 hk), List.getElem?_ofFn, k.isLt,
      dif_pos] at hget
    exact Option.some.inj hget

end Bytes

section Images

variable {B : Build} {al : Nat → Nat → UpdateAlloc} {r : Registered} {s : List UInt8}
  {M M' : PoolMemory} {m m' : Padding} {g g' : Globals} {file : List UInt8}

theorem saveHeader_akin (h : AkinGlobals g g') :
    saveHeader r (btV3Export B g) = saveHeader r (btV3Export B g') := by
  simp only [saveHeader, btV3Export, h.bt.used, h.ctx.used, h.ctx.nslots, h.window]

theorem trainAll_left (hrun : btV3TrainAll B al s (btV3Init B M.pool M.ctxPool) = .ok g) :
    (∀ i < g.bt.used, ∀ k : Fin Bcb.btMaxDepth, (g.bt.pool i).ctxLen.toNat ≤ k →
      (g.bt.pool i).ctx k = (M.pool i).ctx k) ∧
    ∀ i < g.ctx.used, ∀ k : Fin Bcb.btMaxDepth, (g.ctx.pool i).ctxLen.toNat ≤ k →
      (g.ctx.pool i).ctx k = (M.ctxPool i).ctx k := by
  have hgrown := trainAll_grown (init_linked B M.pool M.ctxPool) hrun
  exact ⟨fun i _ k hk => hgrown.bt.left i (Nat.zero_le i) k fun _ => hk,
    fun i _ k hk => hgrown.ctx.left i (Nat.zero_le i) k fun _ => hk⟩

/-- Nothing else of the memory comes into the file. -/
theorem SameLeft.sections (h : SameLeft g M M') (hakin : AkinGlobals g g')
    (hrun : btV3TrainAll B al s (btV3Init B M.pool M.ctxPool) = .ok g)
    (hrun' : btV3TrainAll B al s (btV3Init B M'.pool M'.ctxPool) = .ok g') (hdr : BcbpHeader) :
    sections B M.padding r g hdr = sections B M'.padding r g' hdr := by
  obtain ⟨hbt, hctx⟩ := trainAll_left hrun
  obtain ⟨hbt', hctx'⟩ := trainAll_left hrun'
  have hpool : ∀ i ∈ List.range g.bt.used,
      btEntryBytes (M.padding.bt i) (g.bt.pool i) =
        btEntryBytes (M'.padding.bt i) (g'.bt.pool i) := by
    intro i hi
    have hi := List.mem_range.1 hi
    obtain ⟨hlen, hbytes, hnext, hfreq, hlink⟩ := BtEntry.written_inj (hakin.bt.pool i hi)
    have hsame : (g.bt.pool i).ctx = (g'.bt.pool i).ctx := by
      refine ctx_ext hbytes fun k hk => ?_
      rw [hbt i hi k (hlen ▸ hk), hbt' i (hakin.bt.used ▸ hi) k hk,
        h.btCtx i hi k (hlen ▸ hk)]
    simp only [btEntryBytes, h.btPad i hi, hsame, hlen, hnext, hfreq, hlink]
  have hctxPool : ∀ i ∈ List.range g.ctx.used,
      ctxEntryBytes (M.padding.ctx i) (g.ctx.pool i) =
        ctxEntryBytes (M'.padding.ctx i) (g'.ctx.pool i) := by
    intro i hi
    have hi := List.mem_range.1 hi
    obtain ⟨hlen, hbytes, htotal, hunique, hfirst⟩ := CtxEntry.written_inj (hakin.ctx.pool i hi)
    have hsame : (g.ctx.pool i).ctx = (g'.ctx.pool i).ctx := by
      refine ctx_ext hbytes fun k hk => ?_
      rw [hctx i hi k (hlen ▸ hk), hctx' i (hakin.ctx.used ▸ hi) k hk,
        h.ctxCtx i hi k (hlen ▸ hk)]
    simp only [ctxEntryBytes, h.ctxPad i hi, hsame, hlen, htotal, hunique, hfirst]
  unfold Prior.sections
  rw [← hakin.bt.used, ← hakin.ctx.used, ← hakin.window, ← hakin.bloom, ← hakin.ctx.slot,
    ← hakin.ctx.nslots, List.flatMap_congr hpool, List.flatMap_congr hctxPool]

theorem SameLeft.bcbPriorSave (h : SameLeft g M M') (hakin : AkinGlobals g g')
    (hrun : btV3TrainAll B al s (btV3Init B M.pool M.ctxPool) = .ok g)
    (hrun' : btV3TrainAll B al s (btV3Init B M'.pool M'.ctxPool) = .ok g') :
    bcbPriorSave B M.padding r g = bcbPriorSave B M'.padding r g' := by
  unfold Prior.bcbPriorSave
  dsimp only
  rw [← saveHeader_akin hakin, h.sections hakin hrun hrun']

theorem sameLeft_of_bcbPriorSave (hakin : AkinGlobals g g')
    (hrun : btV3TrainAll B al s (btV3Init B M.pool M.ctxPool) = .ok g)
    (hrun' : btV3TrainAll B al s (btV3Init B M'.pool M'.ctxPool) = .ok g')
    (hsave : Prior.bcbPriorSave B M.padding r g = some file)
    (hsave' : Prior.bcbPriorSave B M'.padding r g' = some file) : SameLeft g M M' := by
  obtain ⟨hbt, hctx⟩ := trainAll_left hrun
  obtain ⟨hbt', hctx'⟩ := trainAll_left hrun'
  have hsaved := bcbPriorSave_saved hsave
  have hsaved' := bcbPriorSave_saved hsave'
  have hpool : ∀ i < g.bt.used, M.padding.bt i = M'.padding.bt i ∧
      (g.bt.pool i).ctx = (g'.bt.pool i).ctx := by
    intro i hi
    have hheld := (hsaved.section_holds (i := 1) rfl).record (fun _ _ => btEntryBytes_length _ _) hi
    have hheld' := (hsaved'.section_holds (i := 1) rfl).record
      (fun _ _ => btEntryBytes_length _ _) (hakin.bt.used ▸ hi)
    rw [← saveHeader_akin hakin] at hheld'
    exact btEntryBytes_inj (hheld.unique hheld'
      ((btEntryBytes_length _ _).trans (btEntryBytes_length _ _).symm))
  have hctxPool : ∀ i < g.ctx.used, M.padding.ctx i = M'.padding.ctx i ∧
      (g.ctx.pool i).ctx = (g'.ctx.pool i).ctx := by
    intro i hi
    have hheld := (hsaved.section_holds (i := 2) rfl).record
      (fun _ _ => ctxEntryBytes_length _ _) hi
    have hheld' := (hsaved'.section_holds (i := 2) rfl).record
      (fun _ _ => ctxEntryBytes_length _ _) (hakin.ctx.used ▸ hi)
    rw [← saveHeader_akin hakin] at hheld'
    exact ctxEntryBytes_inj (hheld.unique hheld'
      ((ctxEntryBytes_length _ _).trans (ctxEntryBytes_length _ _).symm))
  constructor
  · exact fun i hi => (hpool i hi).1
  · intro i hi k hk
    have hlen := (BtEntry.written_inj (hakin.bt.pool i hi)).1
    rw [← hbt i hi k hk, ← hbt' i (hakin.bt.used ▸ hi) k (hlen ▸ hk), (hpool i hi).2]
  · exact fun i hi => (hctxPool i hi).1
  · intro i hi k hk
    have hlen := (CtxEntry.written_inj (hakin.ctx.pool i hi)).1
    rw [← hctx i hi k hk, ← hctx' i (hakin.ctx.used ▸ hi) k (hlen ▸ hk), (hctxPool i hi).2]

/-- The same training writes the same file exactly where the memory was the same, beyond the
contexts of the entries and between their fields. -/
theorem trainedImage_eq_iff
    (hrun : btV3TrainAll B al s (btV3Init B M.pool M.ctxPool) = .ok g)
    (hsave : Prior.bcbPriorSave B M.padding r g = some file) :
    trainedImage B al r s M' = trainedImage B al r s M ↔ SameLeft g M M' := by
  obtain ⟨g', hrun', hakin⟩ :=
    (trainAll_akin B al s M.pool M'.pool M.ctxPool M'.ctxPool).ok_left hrun
  rw [trainedImage, trainedImage, hrun, hrun']
  constructor
  · intro h
    have hsave' := (Except.ok.inj h).trans hsave
    exact sameLeft_of_bcbPriorSave hakin hrun hrun' hsave hsave'
  · intro h
    exact congrArg Except.ok (h.bcbPriorSave hakin hrun hrun').symm

theorem trainAll_short (hs : s.length ≤ 1)
    (hrun : btV3TrainAll B al s (btV3Init B M.pool M.ctxPool) = .ok g) :
    g.bt.used = 0 ∧ g.ctx.used = 0 := by
  match s, hs with
  | [], _ =>
    obtain rfl := Except.ok.inj hrun
    exact ⟨rfl, rfl⟩
  | [b], _ =>
    obtain ⟨g', hfirst, hrun⟩ := bind_eq_ok.1 hrun
    obtain rfl := Except.ok.inj hfirst
    obtain rfl := Except.ok.inj hrun
    exact ⟨rfl, rfl⟩

theorem trainedImage_other {b b' : UInt8}
    (hrun : btV3TrainAll B al (b :: b' :: s) (btV3Init B M.pool M.ctxPool) = .ok g)
    (hsave : Prior.bcbPriorSave B M.padding r g = some file) :
    trainedImage B al r (b :: b' :: s) M.other ≠ trainedImage B al r (b :: b' :: s) M := by
  intro h
  obtain ⟨hused, hlen⟩ := trainAll_first hrun
  have hleft := ((trainedImage_eq_iff hrun hsave).1 h).btCtx 0 hused 23 (by rw [hlen]; decide)
  have hval := congrArg UInt8.toNat hleft
  change _ = ((M.pool 0).ctx 23 + 1).toNat at hval
  rw [UInt8.toNat_add, UInt8.toNat_one] at hval
  omega

/-- A training that writes a file writes the same one in every process exactly where it is of one
byte at most, and counts nothing. -/
theorem trainedImage_same_iff (hwrites : ∃ M file, trainedImage B al r s M = .ok (some file)) :
    (∀ M M', trainedImage B al r s M = trainedImage B al r s M') ↔ s.length ≤ 1 := by
  obtain ⟨M, file, hfile⟩ := hwrites
  obtain ⟨g, hrun, hsave⟩ := bind_eq_ok.1 hfile
  have hsave := Except.ok.inj hsave
  constructor
  · intro h
    by_contra hlong
    match s, hlong with
    | [], hlong => exact hlong (Nat.zero_le 1)
    | [_], hlong => exact hlong le_rfl
    | b :: b' :: s, _ => exact trainedImage_other hrun hsave (h M.other M)
  · intro hs
    have hempty : ∀ M', SameLeft g M M' := by
      obtain ⟨hbt, hctx⟩ := trainAll_short hs hrun
      intro M'
      refine ⟨?_, ?_, ?_, ?_⟩ <;> intro i hi <;> omega
    intro M1 M2
    rw [(trainedImage_eq_iff hrun hsave).2 (hempty M1),
      (trainedImage_eq_iff hrun hsave).2 (hempty M2)]

end Images

theorem ab_writes : ∃ g file,
    btV3TrainAll .plain (fun _ _ => .succeeds) [97, 98]
      (btV3Init .plain PoolMemory.blank.pool PoolMemory.blank.ctxPool) = .ok g ∧
    bcbPriorSave .plain PoolMemory.blank.padding .none g = some file := by
  have hmap : (btV3TrainAll .plain (fun _ _ => .succeeds) [97, 98]
      (btV3Init .plain PoolMemory.blank.pool PoolMemory.blank.ctxPool)).map
        (fun g => (g.bt.used, g.ctx.used, g.ctx.nslots)) = .ok (1, 1, 2 ^ 16) := by
    decide +kernel
  obtain ⟨g, hrun, hsizes⟩ := map_eq_ok.1 hmap
  obtain ⟨hbt, hsizes⟩ := Prod.mk.inj hsizes
  obtain ⟨hctx, hslots⟩ := Prod.mk.inj hsizes
  obtain ⟨file, hsave⟩ := bcbPriorSave_some .plain PoolMemory.blank.padding .none
    (g := g) (by omega) (by omega) (by omega)
  exact ⟨g, file, hrun, hsave⟩

theorem trainedImage_same_iff_ab :
    (∀ M M', trainedImage .plain (fun _ _ => .succeeds) .none [97, 98] M =
      trainedImage .plain (fun _ _ => .succeeds) .none [97, 98] M') ↔
    ([97, 98] : List UInt8).length ≤ 1 := by
  obtain ⟨g, file, hrun, hsave⟩ := ab_writes
  refine trainedImage_same_iff ⟨.blank, file, ?_⟩
  rw [trainedImage, hrun, ← hsave]
  rfl

/-- Other memory, another file of the same training. -/
theorem trainedImage_ab :
    trainedImage .plain (fun _ _ => .succeeds) .none [97, 98] PoolMemory.blank.other ≠
      trainedImage .plain (fun _ _ => .succeeds) .none [97, 98] .blank := by
  obtain ⟨g, file, hrun, hsave⟩ := ab_writes
  exact trainedImage_other hrun hsave

end Bcb.Prior
