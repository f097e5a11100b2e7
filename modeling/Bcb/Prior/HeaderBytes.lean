import Bcb.Prior.Parse

namespace Bcb.Prior

/-- The `k` little-endian bytes of a number. -/
def leBytes : Nat → Nat → List UInt8
  | 0, _ => []
  | k + 1, v => UInt8.ofNat (v % 256) :: leBytes k (v / 256)

/-- The `struct` as it lies in memory. -/
def headerBytes (h : BcbpHeader) : List UInt8 :=
  h.magic ++ (leBytes 4 h.version ++ (leBytes 4 h.btEntrySz ++ (leBytes 4 h.ctxEntrySz ++
    (leBytes 4 h.btMaxDepth ++ (leBytes 4 h.pres ++ (leBytes 8 h.bloomBits ++
    (leBytes 8 h.poolUsed ++ (leBytes 8 h.ctxUsed ++ (leBytes 8 h.ctxNslots ++
    (leBytes 8 h.bloomBytes ++ (leBytes 4 (h.winLen % 2 ^ 32).toNat ++ (leBytes 4 h.lmN ++
    (leBytes 8 h.lmK ++ (leBytes 4 h.schemaRec ++ (leBytes 4 h.schemaPos ++
    (leBytes 8 h.offWindow ++ (leBytes 8 h.offPool ++ (leBytes 8 h.offCtxPool ++
    (leBytes 8 h.offCtxSlot ++ (leBytes 8 h.offBloom ++ (leBytes 8 h.offLmCtx ++
    (leBytes 8 h.offLmCum ++ (leBytes 8 h.offSchemaModes ++ (leBytes 8 h.offSchemaCum ++
    leBytes 8 h.fileSize))))))))))))))))))))))))

/-- Every field has a value of its type. -/
structure HeaderFits (h : BcbpHeader) : Prop where
  magic : h.magic.length = 4
  version : h.version < 2 ^ 32
  btEntrySz : h.btEntrySz < 2 ^ 32
  ctxEntrySz : h.ctxEntrySz < 2 ^ 32
  btMaxDepth : h.btMaxDepth < 2 ^ 32
  pres : h.pres < 2 ^ 32
  bloomBits : h.bloomBits < 2 ^ 64
  poolUsed : h.poolUsed < 2 ^ 64
  ctxUsed : h.ctxUsed < 2 ^ 64
  ctxNslots : h.ctxNslots < 2 ^ 64
  bloomBytes : h.bloomBytes < 2 ^ 64
  winLen : -2 ^ 31 ≤ h.winLen ∧ h.winLen < 2 ^ 31
  lmN : h.lmN < 2 ^ 32
  lmK : h.lmK < 2 ^ 64
  schemaRec : h.schemaRec < 2 ^ 32
  schemaPos : h.schemaPos < 2 ^ 32
  offWindow : h.offWindow < 2 ^ 64
  offPool : h.offPool < 2 ^ 64
  offCtxPool : h.offCtxPool < 2 ^ 64
  offCtxSlot : h.offCtxSlot < 2 ^ 64
  offBloom : h.offBloom < 2 ^ 64
  offLmCtx : h.offLmCtx < 2 ^ 64
  offLmCum : h.offLmCum < 2 ^ 64
  offSchemaModes : h.offSchemaModes < 2 ^ 64
  offSchemaCum : h.offSchemaCum < 2 ^ 64
  fileSize : h.fileSize < 2 ^ 64

variable {im : Image} {h : BcbpHeader}

/-- The image holds the list from an offset on. -/
def Holds (im : Image) (off : Nat) (l : List UInt8) : Prop :=
  ∀ i, (hi : i < l.length) → im.byteAt (off + i) = l[i]

theorem Holds.append {off : Nat} {l m : List UInt8} (h : Holds im off (l ++ m)) :
    Holds im off l ∧ Holds im (off + l.length) m := by
  constructor
  · intro i hi
    rw [h i (by rw [List.length_append]; omega), List.getElem_append_left hi]
  · intro i hi
    rw [Nat.add_assoc, h (l.length + i) (by rw [List.length_append]; omega),
      List.getElem_append_right (Nat.le_add_right _ _)]
    simp

@[simp] theorem leBytes_length (k v : Nat) : (leBytes k v).length = k := by
  induction k generalizing v with
  | zero => rfl
  | succ k ih => rw [leBytes, List.length_cons, ih]

theorem leBytes_getElem (k v i : Nat) (h : i < (leBytes k v).length) :
    (leBytes k v)[i] = UInt8.ofNat (v / 256 ^ i % 256) := by
  induction k generalizing v i with
  | zero => cases h
  | succ k ih =>
    cases i with
    | zero => simp [leBytes]
    | succ i =>
      simp only [leBytes, List.getElem_cons_succ]
      rw [ih, pow_succ', Nat.div_div_eq_div_mul]

theorem Holds.le {off k v : Nat} (h : Holds im off (leBytes k v)) : im.le off k = v % 256 ^ k := by
  have hprefix : ∀ j ≤ k, im.le off j = v % 256 ^ j := by
    intro j hj
    induction j with
    | zero => simp [Image.le, Nat.mod_one]
    | succ j ih =>
      have hbyte := h j (by rw [leBytes_length]; exact hj)
      rw [leBytes_getElem] at hbyte
      have hnat : (im.byteAt (off + j)).toNat = v / 256 ^ j % 256 := by
        rw [hbyte]
        exact Nat.mod_eq_of_lt (Nat.mod_lt _ (by norm_num))
      rw [Image.le, ih (Nat.le_of_succ_le hj), hnat, Nat.mod_pow_succ]
  exact hprefix k le_rfl

theorem Holds.field {off k v : Nat} {rest : List UInt8} (h : Holds im off (leBytes k v ++ rest))
    (hv : v < 256 ^ k) : im.le off k = v ∧ Holds im (off + k) rest := by
  obtain ⟨hl, hrest⟩ := h.append
  rw [leBytes_length] at hrest
  exact ⟨by rw [hl.le, Nat.mod_eq_of_lt hv], hrest⟩

theorem Holds.field4 {off v : Nat} {rest : List UInt8} (h : Holds im off (leBytes 4 v ++ rest))
    (hv : v < 2 ^ 32) : im.le off 4 = v ∧ Holds im (off + 4) rest := h.field hv

theorem Holds.field8 {off v : Nat} {rest : List UInt8} (h : Holds im off (leBytes 8 v ++ rest))
    (hv : v < 2 ^ 64) : im.le off 8 = v ∧ Holds im (off + 8) rest := h.field hv

theorem toInt32_emod {x : Int} (hl : -2 ^ 31 ≤ x) (hu : x < 2 ^ 31) :
    toInt32 (x % 2 ^ 32).toNat = x ∧ (x % 2 ^ 32).toNat < 2 ^ 32 := by
  have hnat : ((x % 2 ^ 32).toNat : Int) = x % 2 ^ 32 :=
    Int.toNat_of_nonneg (Int.emod_nonneg _ (by norm_num))
  constructor
  · rw [toInt32, hnat]
    have hmod : (x % 2 ^ 32).bmod (2 ^ 32) = x.bmod (2 ^ 32) := by
      exact_mod_cast Int.emod_bmod x (2 ^ 32)
    exact hmod.trans (Int.bmod_eq_of_le (by omega) (by omega))
  · omega

theorem header_of_holds (hh : Holds im 0 (headerBytes h)) (hf : HeaderFits h) : header im = h := by
  obtain ⟨hmagic, hh⟩ := hh.append
  rw [hf.magic, Nat.zero_add] at hh
  have hmagic : im.bytesAt 0 4 = h.magic := by
    apply List.ext_getElem
    · simp [Image.bytesAt, hf.magic]
    · intro i h1 h2
      have hi := hmagic i h2
      simpa [Image.bytesAt] using hi
  have hwin := toInt32_emod hf.winLen.1 hf.winLen.2
  obtain ⟨hVersion, hh⟩ := hh.field4 hf.version
  obtain ⟨hBtEntrySz, hh⟩ := hh.field4 hf.btEntrySz
  obtain ⟨hCtxEntrySz, hh⟩ := hh.field4 hf.ctxEntrySz
  obtain ⟨hBtMaxDepth, hh⟩ := hh.field4 hf.btMaxDepth
  obtain ⟨hPres, hh⟩ := hh.field4 hf.pres
  obtain ⟨hBloomBits, hh⟩ := hh.field8 hf.bloomBits
  obtain ⟨hPoolUsed, hh⟩ := hh.field8 hf.poolUsed
  obtain ⟨hCtxUsed, hh⟩ := hh.field8 hf.ctxUsed
  obtain ⟨hCtxNslots, hh⟩ := hh.field8 hf.ctxNslots
  obtain ⟨hBloomBytes, hh⟩ := hh.field8 hf.bloomBytes
  obtain ⟨hWinLen, hh⟩ := hh.field4 hwin.2
  obtain ⟨hLmN, hh⟩ := hh.field4 hf.lmN
  obtain ⟨hLmK, hh⟩ := hh.field8 hf.lmK
  obtain ⟨hSchemaRec, hh⟩ := hh.field4 hf.schemaRec
  obtain ⟨hSchemaPos, hh⟩ := hh.field4 hf.schemaPos
  obtain ⟨hOffWindow, hh⟩ := hh.field8 hf.offWindow
  obtain ⟨hOffPool, hh⟩ := hh.field8 hf.offPool
  obtain ⟨hOffCtxPool, hh⟩ := hh.field8 hf.offCtxPool
  obtain ⟨hOffCtxSlot, hh⟩ := hh.field8 hf.offCtxSlot
  obtain ⟨hOffBloom, hh⟩ := hh.field8 hf.offBloom
  obtain ⟨hOffLmCtx, hh⟩ := hh.field8 hf.offLmCtx
  obtain ⟨hOffLmCum, hh⟩ := hh.field8 hf.offLmCum
  obtain ⟨hOffSchemaModes, hh⟩ := hh.field8 hf.offSchemaModes
  obtain ⟨hOffSchemaCum, hh⟩ := hh.field8 hf.offSchemaCum
  have hFileSize := hh.le.trans (Nat.mod_eq_of_lt hf.fileSize)
  have hi32 : im.i32 64 = h.winLen := (congrArg (fun n : Nat => toInt32 n) hWinLen).trans hwin.1
  cases h
  simp only [header, BcbpHeader.mk.injEq]
  exact ⟨hmagic, hVersion, hBtEntrySz, hCtxEntrySz, hBtMaxDepth, hPres, hBloomBits, hPoolUsed,
    hCtxUsed, hCtxNslots, hBloomBytes, hi32, hLmN, hLmK, hSchemaRec, hSchemaPos, hOffWindow,
    hOffPool, hOffCtxPool, hOffCtxSlot, hOffBloom, hOffLmCtx, hOffLmCum, hOffSchemaModes,
    hOffSchemaCum, hFileSize⟩

section SameHeader

variable {im' : Image}

theorem byteAt_of_le {off k : Nat} (h : im.le off k = im'.le off k) {j : Nat} (hj : j < k) :
    im.byteAt (off + j) = im'.byteAt (off + j) := by
  induction k with
  | zero => omega
  | succ k ih =>
    rw [Image.le, Image.le] at h
    have hlt := im.le_lt off k
    have hlt' := im'.le_lt off k
    have hlow := congrArg (· % 256 ^ k) h
    have hhigh := congrArg (· / 256 ^ k) h
    simp only [Nat.add_mul_mod_self_left, Nat.mod_eq_of_lt hlt, Nat.mod_eq_of_lt hlt'] at hlow
    simp only [Nat.add_mul_div_left _ _ (Nat.pow_pos (by decide : 0 < 256)),
      Nat.div_eq_of_lt hlt, Nat.div_eq_of_lt hlt', Nat.zero_add] at hhigh
    rcases Nat.lt_succ_iff_lt_or_eq.1 hj with hj | rfl
    · exact ih hlow hj
    · exact UInt8.toNat_inj.1 hhigh

/-- Where the fields of the header lie, each with its size. -/
def headerFields : List (Nat × Nat) :=
  [(4, 4), (8, 4), (12, 4), (16, 4), (20, 4), (24, 8), (32, 8), (40, 8), (48, 8), (56, 8), (64, 4),
    (68, 4), (72, 8), (80, 4), (84, 4), (88, 8), (96, 8), (104, 8), (112, 8), (120, 8), (128, 8),
    (136, 8), (144, 8), (152, 8), (160, 8)]

theorem le_of_i32 {off : Nat} (h : im.i32 off = im'.i32 off) : im.le off 4 = im'.le off 4 := by
  have hlt := im.le_lt off 4
  have hlt' := im'.le_lt off 4
  unfold Image.i32 toInt32 at h
  rw [Int.bmod_def, Int.bmod_def] at h
  split_ifs at h <;> omega

theorem headerFields_eq (h : header im = header im') :
    ∀ x ∈ headerFields, im.le x.1 x.2 = im'.le x.1 x.2 := by
  simp only [header, BcbpHeader.mk.injEq] at h
  obtain ⟨-, h4, h8, h12, h16, h20, h24, h32, h40, h48, h56, h64, h68, h72, h80, h84, h88, h96,
    h104, h112, h120, h128, h136, h144, h152, h160⟩ := h
  simp only [headerFields, List.forall_mem_cons]
  exact ⟨h4, h8, h12, h16, h20, h24, h32, h40, h48, h56, le_of_i32 h64, h68, h72, h80, h84, h88,
    h96, h104, h112, h120, h128, h136, h144, h152, h160, fun _ hx => (nomatch hx)⟩

theorem byteAt_of_header (h : header im = header im') {i : Nat} (hi : i < headerSize) :
    im.byteAt i = im'.byteAt i := by
  by_cases hmagic : i < 4
  · have hbytes : im.bytesAt 0 4 = im'.bytesAt 0 4 := congrArg BcbpHeader.magic h
    have hmem := List.map_inj_left.1 hbytes i (List.mem_range.2 hmagic)
    rwa [Nat.zero_add] at hmem
  · have hfield : ∀ i < headerSize, 4 ≤ i → ∃ x ∈ headerFields, x.1 ≤ i ∧ i < x.1 + x.2 := by
      decide +kernel
    obtain ⟨x, hx, hle, hlt⟩ := hfield i hi (by omega)
    have hbyte := byteAt_of_le (headerFields_eq h x hx) (by omega : i - x.1 < x.2)
    rwa [Nat.add_sub_cancel' hle] at hbyte

end SameHeader

/-- An image with the given header, and what follows it. -/
def withHeader (h : BcbpHeader) (len : Nat) (body : Nat → UInt8) : Image where
  len := len
  byte i := if i < headerSize then (headerBytes h).getD i 0 else body i

variable {len : Nat} {body : Nat → UInt8}

theorem headerBytes_length (hf : HeaderFits h) : (headerBytes h).length = headerSize := by
  simp [headerBytes, leBytes_length, hf.magic, headerSize]

theorem withHeader_byteAt {i : Nat} (h1 : headerSize ≤ i) (h2 : i < len) :
    (withHeader h len body).byteAt i = body i := by
  have hlt : i < (withHeader h len body).len := h2
  rw [Image.byteAt, dif_pos hlt]
  exact if_neg (Nat.not_lt_of_le h1)

theorem withHeader_byteAt_header {i : Nat} (hi : i < headerSize) (hlen : headerSize ≤ len) :
    (withHeader h len body).byteAt i = (headerBytes h).getD i 0 := by
  have hlt : i < (withHeader h len body).len := hi.trans_le hlen
  rw [Image.byteAt, dif_pos hlt]
  exact if_pos hi

theorem header_withHeader (hf : HeaderFits h) (hlen : headerSize ≤ len) :
    header (withHeader h len body) = h := by
  apply header_of_holds _ hf
  intro i hi
  rw [Nat.zero_add, withHeader_byteAt_header (headerBytes_length hf ▸ hi) hlen,
    List.getD_eq_getElem?_getD, List.getElem?_eq_getElem hi]
  rfl

end Bcb.Prior
