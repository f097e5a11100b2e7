import Bcb.Prior.Accepted
import Bcb.Prior.Save

namespace Bcb

/-- The bytes of a file. -/
def Image.ofList (l : List UInt8) : Image := ⟨l.length, l.get⟩

namespace Prior

open Lib Layout Bt

variable {B : Build} {m : Padding} {M : Memory} {r : Registered} {g : Globals} {im : Image}

theorem le_align8 (x : Nat) : x ≤ align8 x := by
  unfold align8
  omega

@[simp] theorem align8_aligned (x : Nat) : align8 x % 8 = 0 := Nat.mul_mod_left _ 8

theorem align8_of_aligned {x : Nat} (h : x % 8 = 0) : align8 x = x := by
  unfold align8
  omega

@[simp] theorem intBytes_length (x : Int) : (intBytes x).length = 4 := leBytes_length 4 _

@[simp] theorem btEntryBytes_length (pad : Fin 2 → UInt8) (e : BtEntry) :
    (btEntryBytes pad e).length = btEntrySize := by
  simp [btEntryBytes, leBytes_length, intBytes_length, btEntrySize]

@[simp] theorem ctxEntryBytes_length (pad : Fin 3 → UInt8) (e : CtxEntry) :
    (ctxEntryBytes pad e).length = ctxEntrySize := by
  simp [ctxEntryBytes, leBytes_length, intBytes_length, ctxEntrySize]

@[simp] theorem rowBytes_length (w : UInt8 → UInt16) : (rowBytes w).length = 512 :=
  records_length fun _ _ => leBytes_length 2 _

section Lengths

variable (m : Padding) (r : Registered) (g : Globals) (h : BcbpHeader)

@[simp] theorem pool_length :
    ((List.range g.bt.used).flatMap fun i => btEntryBytes (m.bt i) (g.bt.pool i)).length =
      btEntrySize * g.bt.used := records_length fun _ _ => btEntryBytes_length _ _

@[simp] theorem ctxPool_length :
    ((List.range g.ctx.used).flatMap fun i => ctxEntryBytes (m.ctx i) (g.ctx.pool i)).length =
      ctxEntrySize * g.ctx.used := records_length fun _ _ => ctxEntryBytes_length _ _

@[simp] theorem ctxSlot_length :
    ((List.range g.ctx.nslots).flatMap fun i => intBytes (g.ctx.slot i)).length =
      4 * g.ctx.nslots := records_length fun _ _ => intBytes_length _

@[simp] theorem lmCtx_length :
    ((List.range h.lmK).flatMap fun k => (List.range h.lmN).map (r.lmCtx k)).length =
      h.lmN * h.lmK := records_length fun _ _ => by rw [List.length_map, List.length_range]

@[simp] theorem rows_length (n : Nat) (cum : Nat → UInt8 → UInt16) :
    ((List.range n).flatMap fun k => rowBytes (cum k)).length = 512 * n :=
  records_length fun _ _ => rowBytes_length _

@[simp] theorem bytes_length (n : Nat) (f : Nat → UInt8) : ((List.range n).map f).length = n := by
  rw [List.length_map, List.length_range]

end Lengths

theorem sections_fit : Fits headerSize (sections B m r g (saveHeader r (btV3Export B g))) := by
  refine ⟨le_align8 _, ?_, ?_, ?_, ?_, ?_, ?_, ?_, ?_, trivial⟩
  · rw [bytes_length]
    exact le_align8 _
  · rw [pool_length, Nat.mul_comm]
    exact le_align8 _
  · rw [ctxPool_length, Nat.mul_comm]
    exact le_align8 _
  · rw [ctxSlot_length, Nat.mul_comm]
    exact le_align8 _
  · rw [bytes_length]
    exact le_align8 _
  · rw [lmCtx_length, Nat.mul_comm]
    exact le_align8 _
  · rw [rows_length, Nat.mul_comm]
    exact le_align8 _
  · rw [bytes_length]
    exact le_align8 _

/-- The last section ends at a multiple of 8, so that nothing follows it. -/
@[simp]
theorem sections_ending : ending headerSize (sections B m r g (saveHeader r (btV3Export B g))) =
    (saveHeader r (btV3Export B g)).fileSize := by
  have haligned : (saveHeader r (btV3Export B g)).offSchemaCum % 8 = 0 := align8_aligned _
  have hsum : ((saveHeader r (btV3Export B g)).offSchemaCum + r.scPos * 512) % 8 = 0 := by omega
  have hfile : (saveHeader r (btV3Export B g)).fileSize =
      (saveHeader r (btV3Export B g)).offSchemaCum + r.scPos * 512 := align8_of_aligned hsum
  rw [hfile, Nat.mul_comm, ← rows_length r.scPos r.scCum]
  rfl

theorem imageSections_fit :
    Fits headerSize (imageSections B M r g (saveHeader r (btV3Export B g))) := by
  obtain ⟨hwindow, hrest⟩ := sections_fit (B := B) (m := M.toPadding) (r := r) (g := g)
  rw [bytes_length] at hrest
  refine ⟨hwindow, ?_⟩
  rw [bytes_length]
  exact hrest

@[simp] theorem imageSections_ending :
    ending headerSize (imageSections B M r g (saveHeader r (btV3Export B g))) =
      (saveHeader r (btV3Export B g)).fileSize := by
  rw [← sections_ending (B := B) (m := M.toPadding) (r := r) (g := g)]
  change ending (_ + _) _ = ending (_ + _) _
  rw [bytes_length, bytes_length]
  rfl

@[simp]
theorem saveHeader_length : (headerBytes (saveHeader r (btV3Export B g))).length = headerSize := by
  simp [headerBytes, leBytes_length, saveHeader, bcbpMagic, headerSize]

@[simp] theorem imageBytes_length :
    (imageBytes B M r g).length = (saveHeader r (btV3Export B g)).fileSize := by
  have hfit : Fits (headerBytes (saveHeader r (btV3Export B g))).length
      (imageSections B M r g (saveHeader r (btV3Export B g))) := by
    rw [saveHeader_length]
    exact imageSections_fit
  rw [imageBytes, putAll_length hfit, saveHeader_length, imageSections_ending]

/-- The sizes that a file of `n` bytes leaves room for. -/
structure Room (h : BcbpHeader) (n : Nat) : Prop where
  window : h.offWindow + h.btMaxDepth ≤ n
  pool : h.offPool + h.poolUsed * h.btEntrySz ≤ n
  ctxPool : h.offCtxPool + h.ctxUsed * h.ctxEntrySz ≤ n
  ctxSlot : h.offCtxSlot + h.ctxNslots * 4 ≤ n
  bloom : h.offBloom + h.bloomBytes ≤ n
  lmCtx : h.offLmCtx + h.lmK * h.lmN ≤ n
  lmCum : h.offLmCum + h.lmK * 512 ≤ n
  schemaModes : h.offSchemaModes + h.schemaPos ≤ n
  schemaCum : h.offSchemaCum + h.schemaPos * 512 ≤ n

theorem saveHeader_room :
    Room (saveHeader r (btV3Export B g)) (saveHeader r (btV3Export B g)).fileSize := by
  have hle : ∀ {i n : Nat} {x : Nat × List UInt8}, (sections B ⟨fun _ _ => 0, fun _ _ => 0⟩ r g
      (saveHeader r (btV3Export B g)))[i]? = some x → x.2.length = n →
      x.1 + n ≤ (saveHeader r (btV3Export B g)).fileSize := by
    rintro i _ x hx rfl
    rw [← sections_ending (m := ⟨fun _ _ => 0, fun _ _ => 0⟩)]
    exact mem_le_ending sections_fit (List.mem_of_getElem? hx)
  constructor
  · exact hle (i := 0) rfl (bytes_length _ _)
  · exact hle (i := 1) rfl ((pool_length _ g).trans (Nat.mul_comm _ _))
  · exact hle (i := 2) rfl ((ctxPool_length _ g).trans (Nat.mul_comm _ _))
  · exact hle (i := 3) rfl ((ctxSlot_length g).trans (Nat.mul_comm _ _))
  · exact hle (i := 4) rfl (bytes_length _ _)
  · exact hle (i := 5) rfl ((lmCtx_length r _).trans (Nat.mul_comm _ _))
  · exact hle (i := 6) rfl ((rows_length _ _).trans (Nat.mul_comm _ _))
  · exact hle (i := 7) rfl (bytes_length _ _)
  · exact hle (i := 8) rfl ((rows_length _ _).trans (Nat.mul_comm _ _))

theorem saveHeader_fits (hfile : (saveHeader r (btV3Export B g)).fileSize < 2 ^ 63) :
    HeaderFits (saveHeader r (btV3Export B g)) := by
  have hroom := saveHeader_room (B := B) (r := r) (g := g)
  have hpool : (saveHeader r (btV3Export B g)).btEntrySz = 36 := rfl
  have hctx : (saveHeader r (btV3Export B g)).ctxEntrySz = 40 := rfl
  have hpos : (saveHeader r (btV3Export B g)).schemaPos = r.scPos := rfl
  have hrec : (saveHeader r (btV3Export B g)).schemaRec = r.scRec := rfl
  have hlmN : (saveHeader r (btV3Export B g)).lmN ≤ btMaxDepth := by
    change (if r.lmK = 0 then 0 else r.lmN) ≤ btMaxDepth
    split_ifs with hk
    · exact Nat.zero_le _
    · exact (r.lmN_mem hk).2
  have hmax := r.scRec_le
  have heq := r.scPos_eq
  rw [schemaMax] at hmax
  have hlmK := r.lmK_lt
  obtain ⟨hwindow, hpool', hctx', hslot, hbloom, hlmCtx, hlmCum, hmodes, hcum⟩ := hroom
  rw [hpool] at hpool'
  rw [hctx] at hctx'
  have hpow : B.bloomBits ≤ 2 ^ 24 := Nat.pow_le_pow_right (by decide) B.bloomLog_le
  refine ⟨rfl, (by decide : bcbpVersion < 2 ^ 32), (by decide : btEntrySize < 2 ^ 32),
    (by decide : ctxEntrySize < 2 ^ 32), (by decide : Bcb.btMaxDepth < 2 ^ 32),
    B.pres_le.trans_lt (by norm_num), hpow.trans_lt (by norm_num), by omega, by omega, by omega,
    by omega, ?_,
    hlmN.trans_lt (by decide), hlmK.trans (by norm_num), by omega, by omega, by omega, by omega,
    by omega, by omega, by omega, by omega, by omega, by omega, by omega, by omega⟩
  have hwin := g.window.length_le
  change -2 ^ 31 ≤ (g.window.bytes.length : Int) ∧ (g.window.bytes.length : Int) < 2 ^ 31
  rw [btMaxDepth] at hwin
  omega

theorem arrayInBounds_of_le {off a b len : Nat} (h : off + a * b ≤ len) (hlen : len < 2 ^ 64) :
    arrayInBounds off a b len = true := by
  have hmul : mulNoOverflow a b = some (a * b) := by
    apply if_neg
    rintro ⟨h0, hlt⟩
    have hle : b ≤ (2 ^ 64 - 1) / a :=
      (Nat.le_div_iff_mul_le (Nat.pos_of_ne_zero h0)).2 (by rw [Nat.mul_comm]; omega)
    omega
  rw [arrayInBounds, hmul]
  exact regionInBounds_iff.2 h

theorem saveHeader_ok (hfile : (saveHeader r (btV3Export B g)).fileSize < 2 ^ 63) :
    headerOk (saveHeader r (btV3Export B g)) (saveHeader r (btV3Export B g)).fileSize = true := by
  have hroom := saveHeader_room (B := B) (r := r) (g := g)
  have hlt : (saveHeader r (btV3Export B g)).fileSize < 2 ^ 64 := hfile.trans (by norm_num)
  have hwin : (saveHeader r (btV3Export B g)).winLen ≤
      ((saveHeader r (btV3Export B g)).btMaxDepth : Int) := Int.ofNat_le.2 g.window.length_le
  have hlm : (saveHeader r (btV3Export B g)).lmK = 0 ∨ 1 ≤ (saveHeader r (btV3Export B g)).lmN ∧
      (saveHeader r (btV3Export B g)).lmN ≤ btMaxDepth := by
    rcases Nat.eq_zero_or_pos r.lmK with hk | hk
    · exact .inl hk
    · right
      change 1 ≤ (if r.lmK = 0 then 0 else r.lmN) ∧ (if r.lmK = 0 then 0 else r.lmN) ≤ btMaxDepth
      rw [if_neg hk.ne']
      exact r.lmN_mem hk.ne'
  simp only [headerOk, Bool.and_eq_true, Bool.or_eq_true, decide_eq_true_eq,
    regionInBounds_iff]
  refine ⟨⟨⟨⟨⟨⟨⟨⟨⟨⟨rfl, rfl⟩, le_rfl⟩, hroom.window⟩, arrayInBounds_of_le hroom.pool hlt⟩,
    arrayInBounds_of_le hroom.ctxPool hlt⟩, arrayInBounds_of_le hroom.ctxSlot hlt⟩, hroom.bloom⟩,
    Int.natCast_nonneg _, hwin⟩, ?_⟩, .inr ⟨⟨⟨r.scPos_eq, r.scRec_le⟩, hroom.schemaModes⟩,
    arrayInBounds_of_le hroom.schemaCum hlt⟩⟩
  exact hlm.imp_right fun hn => ⟨⟨hn, arrayInBounds_of_le hroom.lmCtx hlt⟩,
    arrayInBounds_of_le hroom.lmCum hlt⟩

/-- An image with the header and the sections of a saved file. -/
structure Saved (B : Build) (m : Memory) (r : Registered) (g : Globals) (im : Image) : Prop where
  header : header im = saveHeader r (btV3Export B g)
  len : im.len = (saveHeader r (btV3Export B g)).fileSize
  lt : im.len < 2 ^ 63
  holds : ∀ x ∈ imageSections B m r g (saveHeader r (btV3Export B g)), Holds im x.1 x.2

theorem holds_of_at {l s : List UInt8} {off : Nat} (h : At l off s) :
    Holds (.ofList l) off s := by
  intro i hi
  have hget := h i hi
  rw [List.getElem?_eq_getElem hi] at hget
  obtain ⟨hlt, hval⟩ := List.getElem?_eq_some_iff.1 hget
  have hlt' : off + i < (Image.ofList l).len := hlt
  rw [Image.byteAt, dif_pos hlt']
  exact hval

theorem putAll_image {h : BcbpHeader} {l : List (Nat × List UInt8)} (hfits : HeaderFits h)
    (hl : Fits headerSize l) : header (.ofList (putAll 0 (headerBytes h) l)) = h ∧
      (Image.ofList (putAll 0 (headerBytes h) l)).len = ending headerSize l ∧
      ∀ x ∈ l, Holds (.ofList (putAll 0 (headerBytes h) l)) x.1 x.2 := by
  have hlen := headerBytes_length hfits
  rw [← hlen] at hl ⊢
  have hhead : At (headerBytes h) 0 (headerBytes h) := fun i _ => by rw [Nat.zero_add]
  exact ⟨header_of_holds (holds_of_at (hhead.extend prefix_putAll)) hfits, putAll_length hl,
    fun x hx => holds_of_at (putAll_at hl hx)⟩

theorem imageBytes_saved (hsize : (saveHeader r (btV3Export B g)).fileSize < 2 ^ 63) :
    Saved B M r g (.ofList (imageBytes B M r g)) := by
  obtain ⟨hheader, hlen, hholds⟩ := putAll_image (saveHeader_fits hsize)
    (imageSections_fit (B := B) (M := M) (r := r) (g := g))
  rw [imageSections_ending] at hlen
  exact ⟨hheader, hlen, hlen.trans_lt hsize, hholds⟩

theorem bcbPriorSave_imageBytes (hsize : (saveHeader r (btV3Export B g)).fileSize < 2 ^ 63) :
    bcbPriorSave B m r g = some (imageBytes B ⟨m, fun _ => 0⟩ r g) := by
  rw [bcbPriorSave, if_pos hsize]
  rfl

theorem bcbPriorSave_saved {file : List UInt8} (h : bcbPriorSave B m r g = some file) :
    Saved B ⟨m, fun _ => 0⟩ r g (.ofList file) := by
  by_cases hfile : (saveHeader r (btV3Export B g)).fileSize < 2 ^ 63
  · rw [bcbPriorSave_imageBytes hfile] at h
    obtain rfl := Option.some.inj h
    exact imageBytes_saved hfile
  · rw [bcbPriorSave, if_neg hfile] at h
    cases h

end Prior

end Bcb
