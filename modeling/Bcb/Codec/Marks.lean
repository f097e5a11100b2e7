import Bcb.Bt.Solitary
import Bcb.Codec.Hashed

/-! For each region that coding reads, two fillings that differ in the last byte it reads of it. -/

namespace Bcb.Codec

open Lib RangeCoder Bt Prior

/-- Five bytes whose hash leads to the last slot, and to the last byte of the bloom. -/
def farKey : List UInt8 := [0x55, 0x5B, 0x2D, 0x5F, 0x34]

@[simp] theorem fnv_farKey : fnv farKey = 0xFFFFFFFF := by decide +kernel

section Last

variable (h : BcbpHeader)

/-- The last slot that a 32-bit index reaches. -/
def lastSlot : Nat := min h.ctxNslots (2 ^ 32) - 1

/-- The last context that an `int` reaches. -/
def lastCtx : Nat := min h.ctxUsed (2 ^ 31) - 1

/-- The last entry that an `int` reaches. -/
def lastEntry : Nat := min h.poolUsed (2 ^ 31) - 1

end Last

/-- What stands in the last records: the slot, the entry of `farKey` and its chain, which ends in
the first entry of the pool, the last bytes of bloom and landmark, the last widths of rows. -/
structure Marks where
  slot : Int
  first : Int
  total : UInt32
  freq : UInt32
  next : Int
  bloom : UInt8
  lmByte : UInt8
  lmWidth : UInt16
  mode : UInt8
  width : UInt16

/-- A row with a width of its own for the byte 255. -/
def lastWidth (x : UInt16) (b : UInt8) : UInt16 := if b = 255 then x else 1

/-- The whole scale for the byte 0. -/
def zeroWidths (b : UInt8) : UInt16 := if b = 0 then 0x4000 else 0

namespace Marks

def filling (x : Marks) (h : BcbpHeader) : Filling where
  pool k := {
    ctx := fun _ => 0
    ctxLen := 0
    nextByte := 1
    freq := if k = 0 then x.freq else 0
    ctxNext := if k = lastEntry h ∧ k ≠ 0 then x.next else -1 }
  ctxPool k :=
    if k = lastCtx h then ⟨fun i => farKey.getD i 0, 5, x.total, 0, x.first⟩
    else ⟨fun _ => 0, 0, 0, 0, -1⟩
  ctxSlot k := if k = lastSlot h then x.slot else -1
  bloom k := if k + 1 = h.bloomBytes then x.bloom else 0xFF
  lmCtx k i := if k + 1 = lmRead h ∧ i + 1 = h.lmN then x.lmByte else 0
  lmCum k := if k + 1 = lmRead h then lastWidth x.lmWidth else fun _ => 0
  schemaModes k := if k + 1 = h.schemaPos then x.mode else 0
  schemaCum k := if k + 1 = h.schemaPos then lastWidth x.width else zeroWidths

/-- All marks are there. -/
def shown (h : BcbpHeader) : Marks where
  slot := if 2 ≤ h.ctxNslots ∧ h.ctxUsed ≠ 0 then lastCtx h else -1
  first := if h.poolUsed = 0 then -1 else lastEntry h
  total := if h.poolUsed = 0 then 0xFFFFFF00 else 0x01000000
  freq := 0x01000000
  next := 0
  bloom := 0xFF
  lmByte := 1
  lmWidth := 0x3F01
  mode := 1
  width := 0x3F01

/-- All but that of a region, where the last byte that is read is another one. -/
def hidden (h : BcbpHeader) : Region → Marks
  | .pool => if h.poolUsed = 1 then { shown h with freq := 0 } else { shown h with next := -2 ^ 31 }
  | .ctxPool =>
    if h.poolUsed = 0 then { shown h with total := 0x00FFFF00 }
    else { shown h with first := lastEntry h - 2 ^ 31 }
  | .ctxSlot => { shown h with slot := lastCtx h - 2 ^ 31 }
  | .bloom => { shown h with bloom := 0 }
  | .lmCtx => { shown h with lmByte := 0 }
  | .lmCum => { shown h with lmWidth := 0x0001 }
  | .schemaModes => { shown h with mode := 0 }
  | .schemaCum => { shown h with width := 0x0001 }

end Marks

/-! ## Where the fillings differ -/

section SameBut

theorem sameBut_leBytes {k v v' : Nat} (h : v % 256 ^ k = v' % 256 ^ k) :
    SameBut k (leBytes (k + 1) v) (leBytes (k + 1) v') := by
  refine ⟨by rw [leBytes_length, leBytes_length], fun i hi => ?_⟩
  rcases Nat.lt_or_ge i (k + 1) with hlt | hge
  · have hmod : v / 256 ^ i % 256 = v' / 256 ^ i % 256 := by
      have hle : i + 1 ≤ k := by omega
      have hdigit : ∀ v : Nat, v / 256 ^ i % 256 = v % 256 ^ k / 256 ^ i % 256 := by
        intro v
        rw [← Nat.mod_mul_right_div_self, ← Nat.mod_mul_right_div_self, ← pow_succ,
          Nat.mod_mod_of_dvd _ (pow_dvd_pow 256 hle)]
      rw [hdigit, h, ← hdigit]
    rw [List.getElem?_eq_getElem (by rwa [leBytes_length]),
      List.getElem?_eq_getElem (by rwa [leBytes_length]), leBytes_getElem, leBytes_getElem, hmod]
  · rw [List.getElem?_eq_none (by rwa [leBytes_length]),
      List.getElem?_eq_none (by rwa [leBytes_length])]

theorem sameBut_intBytes {k : Nat} (hk : k < 2 ^ 31) :
    SameBut 3 (intBytes k) (intBytes (k - 2 ^ 31)) := by
  apply sameBut_leBytes
  omega

theorem rowBytes_lastWidth (x : UInt16) : rowBytes (lastWidth x) =
    ((List.range 255).flatMap fun _ => leBytes 2 1) ++ leBytes 2 x.toNat := by
  have hrange : List.range 256 = List.range 255 ++ [255] := List.range_succ
  have hfront : ((List.range 255).flatMap fun b => leBytes 2 (lastWidth x (UInt8.ofNat b)).toNat) =
      (List.range 255).flatMap fun _ => leBytes 2 1 := by
    apply List.flatMap_congr
    intro b hb
    have hb := List.mem_range.1 hb
    have hne : UInt8.ofNat b ≠ 255 := by
      intro heq
      have hnat := congrArg UInt8.toNat heq
      rw [UInt8.toNat_ofNat', Nat.mod_eq_of_lt (by omega)] at hnat
      exact absurd hnat hb.ne
    rw [lastWidth, if_neg hne]
    rfl
  rw [rowBytes, hrange, List.flatMap_append, List.flatMap_singleton, hfront]
  rfl

theorem sameBut_rowBytes {x x' : UInt16} (h : x.toNat % 256 = x'.toNat % 256) :
    SameBut 511 (rowBytes (lastWidth x)) (rowBytes (lastWidth x')) := by
  have hlen : ((List.range 255).flatMap fun _ => leBytes 2 1).length = 510 :=
    Layout.records_length fun _ _ => leBytes_length 2 _
  have hbytes : SameBut 1 (leBytes 2 x.toNat) (leBytes 2 x'.toNat) :=
    sameBut_leBytes (by rwa [pow_one])
  have htop := hbytes.append_left ((List.range 255).flatMap fun _ => leBytes 2 1)
  rw [rowBytes_lastWidth, rowBytes_lastWidth]
  rwa [hlen] at htop

variable {h : BcbpHeader} {f f' : Filling}

theorem sameBut_freq {pad : Fin 2 → UInt8} {e e' : BtEntry} (h : e.freq.toNat % 256 ^ 3 =
    e'.freq.toNat % 256 ^ 3) (he : e' = { e with freq := e'.freq }) :
    SameBut 31 (btEntryBytes pad e) (btEntryBytes pad e') := by
  rw [he]
  have htop := ((((sameBut_leBytes h).append_right (intBytes e.ctxNext)).append_left
    (List.ofFn pad)).append_left [e.ctxLen, e.nextByte]).append_left (List.ofFn e.ctx)
  rw [List.length_ofFn, List.length_ofFn] at htop
  exact htop

theorem sameBut_ctxNext {pad : Fin 2 → UInt8} {e e' : BtEntry} {k : Nat} (hk : k < 2 ^ 31)
    (h : e.ctxNext = k) (h' : e'.ctxNext = k - 2 ^ 31)
    (he : e' = { e with ctxNext := e'.ctxNext }) :
    SameBut 35 (btEntryBytes pad e) (btEntryBytes pad e') := by
  rw [he, h', ← h]
  have htop := ((((sameBut_intBytes hk).append_left (leBytes 4 e.freq.toNat)).append_left
    (List.ofFn pad)).append_left [e.ctxLen, e.nextByte]).append_left (List.ofFn e.ctx)
  rw [List.length_ofFn, List.length_ofFn, leBytes_length, ← h] at htop
  exact htop

theorem sameBut_totalFreq {pad : Fin 3 → UInt8} {e e' : CtxEntry}
    (h : e.totalFreq.toNat % 256 ^ 3 = e'.totalFreq.toNat % 256 ^ 3)
    (he : e' = { e with totalFreq := e'.totalFreq }) :
    SameBut 31 (ctxEntryBytes pad e) (ctxEntryBytes pad e') := by
  rw [he]
  have htop := ((((sameBut_leBytes h).append_right
    (leBytes 4 e.uniqueNext.toNat ++ intBytes e.firstEntry)).append_left
    (List.ofFn pad)).append_left [e.ctxLen]).append_left (List.ofFn e.ctx)
  rw [List.length_ofFn, List.length_ofFn] at htop
  exact htop

theorem sameBut_firstEntry {pad : Fin 3 → UInt8} {e e' : CtxEntry} {k : Nat} (hk : k < 2 ^ 31)
    (h : e.firstEntry = k) (h' : e'.firstEntry = k - 2 ^ 31)
    (he : e' = { e with firstEntry := e'.firstEntry }) :
    SameBut 39 (ctxEntryBytes pad e) (ctxEntryBytes pad e') := by
  rw [he, h', ← h]
  have htop := (((((sameBut_intBytes hk).append_left (leBytes 4 e.uniqueNext.toNat)).append_left
    (leBytes 4 e.totalFreq.toNat)).append_left
    (List.ofFn pad)).append_left [e.ctxLen]).append_left (List.ofFn e.ctx)
  rw [List.length_ofFn, List.length_ofFn, leBytes_length, leBytes_length, ← h] at htop
  exact htop

theorem sameBut_lastByte {n : Nat} {g g' : Nat → UInt8}
    (h : ∀ i, i + 1 ≠ n → g i = g' i) :
    SameBut (n - 1) ((List.range n).map g) ((List.range n).map g') := by
  refine ⟨by rw [List.length_map, List.length_map], fun i hi => ?_⟩
  rw [List.getElem?_map, List.getElem?_map]
  rcases Nat.lt_or_ge i n with hlt | hge
  · rw [List.getElem?_range hlt, Option.map_some, Option.map_some, h i (by omega)]
  · rw [List.getElem?_eq_none (by rwa [List.length_range])]
    rfl

theorem sameBut_singleton (b b' : UInt8) : SameBut 0 [b] [b'] := by
  refine ⟨rfl, fun i hi => ?_⟩
  obtain ⟨i, rfl⟩ := Nat.exists_eq_succ_of_ne_zero hi
  rfl

/-- Two fillings that differ in the last byte that coding reads of a region, at most. -/
def DifferAt (h : BcbpHeader) (s : Region) (f f' : Filling) : Prop :=
  ∃ m j, s.size h * m + j + 1 = reach h s ∧
    (∀ t k, t ≠ s ∨ k ≠ m → f.record h t k = f'.record h t k) ∧
    SameBut j (f.record h s m) (f'.record h s m)

theorem DifferAt.intro {s : Region} {m j : Nat} (hj : s.size h * m + j + 1 = reach h s)
    (hout : ∀ t, t ≠ s → ∀ k, f.record h t k = f'.record h t k)
    (hin : ∀ k, k ≠ m → f.record h s k = f'.record h s k)
    (hm : SameBut j (f.record h s m) (f'.record h s m)) : DifferAt h s f f' := by
  refine ⟨m, j, hj, ?_, hm⟩
  rintro t k hne
  by_cases ht : t = s
  · subst ht
    exact hin k (hne.resolve_left fun h => h rfl)
  · exact hout t ht k

end SameBut

namespace Marks

variable {h : BcbpHeader}

theorem differ_pool (hs : reach h .pool ≠ 0) :
    DifferAt h .pool ((shown h).filling h) ((hidden h .pool).filling h) := by
  have hreach : reach h .pool = poolRead h ∧ h.poolUsed ≠ 0 := by
    rw [reach] at hs ⊢
    split_ifs at hs ⊢ with hfind
    · exact ⟨rfl, hfind.2⟩
    · exact absurd rfl hs
  obtain ⟨hreach, hused⟩ := hreach
  by_cases hone : h.poolUsed = 1
  · rw [hidden, if_pos hone]
    apply DifferAt.intro (m := 0) (j := 31)
    · rw [hreach, poolRead, if_pos hone, hone]
      rfl
    · intro t ht k
      cases t <;> first | rfl | exact absurd rfl ht
    · intro k hk
      simp only [Filling.record, filling, if_neg hk]
    · have htop : (0x01000000 : UInt32).toNat % 256 ^ 3 = (0 : UInt32).toNat % 256 ^ 3 := by decide
      exact sameBut_freq htop rfl
  · rw [hidden, if_neg hone]
    have hlast : lastEntry h ≠ 0 := by
      rw [lastEntry]
      omega
    apply DifferAt.intro (m := lastEntry h) (j := 35)
    · rw [hreach, poolRead, if_neg hone]
      rfl
    · intro t ht k
      cases t <;> first | rfl | exact absurd rfl ht
    · intro k hk
      simp only [Filling.record, filling, hk, false_and, if_false]
    · apply sameBut_ctxNext (k := 0) (by decide)
      · exact if_pos ⟨rfl, hlast⟩
      · exact if_pos ⟨rfl, hlast⟩
      · rfl

theorem reach_find {s : Region} {n : Nat} (hn : reach h s = if Findable h then n else 0)
    (hs : reach h s ≠ 0) : reach h s = n := by
  split_ifs at hn
  · exact hn
  · exact absurd hn hs

theorem differ_ctxPool (hs : reach h .ctxPool ≠ 0) :
    DifferAt h .ctxPool ((shown h).filling h) ((hidden h .ctxPool).filling h) := by
  have hreach : reach h .ctxPool = ctxRead h := reach_find rfl hs
  rw [hidden]
  split_ifs with h0
  · apply DifferAt.intro (m := lastCtx h) (j := 31)
    · rw [hreach, ctxRead, if_pos h0]
      rfl
    · intro t ht k
      cases t <;> first | rfl | exact absurd rfl ht
    · intro k hk
      simp only [Filling.record, filling, if_neg hk]
    · have htop : (0xFFFFFF00 : UInt32).toNat % 256 ^ 3 = (0x00FFFF00 : UInt32).toNat % 256 ^ 3 := by
        decide
      apply sameBut_totalFreq
      · simp only [filling, if_true, shown, if_pos h0]
        exact htop
      · simp only [filling, if_true, shown, if_pos h0]
  · apply DifferAt.intro (m := lastCtx h) (j := 39)
    · rw [hreach, ctxRead, if_neg h0]
      rfl
    · intro t ht k
      cases t <;> first | rfl | exact absurd rfl ht
    · intro k hk
      simp only [Filling.record, filling, if_neg hk]
    · apply sameBut_firstEntry (k := lastEntry h)
      · rw [lastEntry]
        omega
      · simp only [filling, if_true, shown, if_neg h0]
      · simp only [filling, if_true]
      · simp only [filling, if_true, shown, if_neg h0]

theorem differ_ctxSlot (hs : reach h .ctxSlot ≠ 0) :
    DifferAt h .ctxSlot ((shown h).filling h) ((hidden h .ctxSlot).filling h) := by
  have hreach : reach h .ctxSlot = 4 * min h.ctxNslots (2 ^ 32) := reach_find rfl hs
  have hfind : Findable h := by
    by_contra hno
    exact hs (if_neg hno)
  apply DifferAt.intro (m := lastSlot h) (j := 3)
  · rw [hreach, lastSlot]
    change 4 * _ + 3 + 1 = _
    omega
  · intro t ht k
    cases t <;> first | rfl | exact absurd rfl ht
  · intro k hk
    simp only [Filling.record, filling, if_neg hk]
  · have hlast : lastCtx h < 2 ^ 31 := by
      rw [lastCtx]
      omega
    simp only [Filling.record, filling, if_true, shown, hidden,
      if_pos (show 2 ≤ h.ctxNslots ∧ h.ctxUsed ≠ 0 from ⟨hfind.2.2, hfind.2.1⟩)]
    exact sameBut_intBytes hlast

theorem differ_bloom (hs : reach h .bloom ≠ 0) :
    DifferAt h .bloom ((shown h).filling h) ((hidden h .bloom).filling h) := by
  have hreach : reach h .bloom = h.bloomBytes := reach_find rfl hs
  apply DifferAt.intro (m := h.bloomBytes - 1) (j := 0)
  · rw [hreach] at hs ⊢
    change 1 * _ + 0 + 1 = _
    omega
  · intro t ht k
    cases t <;> first | rfl | exact absurd rfl ht
  · intro k hk
    have hne : k + 1 ≠ h.bloomBytes := by omega
    simp only [Filling.record, filling, if_neg hne]
  · exact sameBut_singleton _ _

theorem differ_lmCtx (hs : reach h .lmCtx ≠ 0) :
    DifferAt h .lmCtx ((shown h).filling h) ((hidden h .lmCtx).filling h) := by
  have hreach : reach h .lmCtx = h.lmN * lmRead h := by
    rw [reach] at hs ⊢
    split_ifs at hs ⊢
    · rfl
    · exact absurd rfl hs
  rw [hreach] at hs
  obtain ⟨hn, hread⟩ := Nat.mul_ne_zero_iff.1 hs
  apply DifferAt.intro (m := lmRead h - 1) (j := h.lmN - 1)
  · obtain ⟨m, hm⟩ := Nat.exists_eq_succ_of_ne_zero hread
    rw [hreach, hm]
    change h.lmN * _ + (h.lmN - 1) + 1 = _
    rw [Nat.mul_succ, Nat.succ_sub_one]
    omega
  · intro t ht k
    cases t <;> first | rfl | exact absurd rfl ht
  · intro k hk
    have hne : k + 1 ≠ lmRead h := by omega
    simp only [Filling.record, filling, hne, false_and, if_false]
  · apply sameBut_lastByte
    intro i hi
    simp only [filling, hi, and_false, if_false]

theorem differ_lmCum (hs : reach h .lmCum ≠ 0) :
    DifferAt h .lmCum ((shown h).filling h) ((hidden h .lmCum).filling h) := by
  have hreach : reach h .lmCum = 512 * lmRead h := by
    rw [reach] at hs ⊢
    split_ifs at hs ⊢
    · rfl
    · exact absurd rfl hs
  rw [hreach] at hs
  have hend : lmRead h - 1 + 1 = lmRead h := by omega
  apply DifferAt.intro (m := lmRead h - 1) (j := 511)
  · rw [hreach]
    change 512 * _ + 511 + 1 = _
    omega
  · intro t ht k
    cases t <;> first | rfl | exact absurd rfl ht
  · intro k hk
    have hne : k + 1 ≠ lmRead h := by omega
    simp only [Filling.record, filling, if_neg hne]
  · have hlow : (0x3F01 : UInt16).toNat % 256 = (0x0001 : UInt16).toNat % 256 := by decide
    simp only [Filling.record, filling, if_pos hend]
    exact sameBut_rowBytes hlow

theorem differ_schemaModes (hs : reach h .schemaModes ≠ 0) :
    DifferAt h .schemaModes ((shown h).filling h) ((hidden h .schemaModes).filling h) := by
  have hreach : reach h .schemaModes = h.schemaPos := by
    rw [reach] at hs ⊢
    split_ifs at hs ⊢
    · exact absurd rfl hs
    · rfl
  rw [hreach] at hs
  apply DifferAt.intro (m := h.schemaPos - 1) (j := 0)
  · rw [hreach]
    change 1 * _ + 0 + 1 = _
    omega
  · intro t ht k
    cases t <;> first | rfl | exact absurd rfl ht
  · intro k hk
    have hne : k + 1 ≠ h.schemaPos := by omega
    simp only [Filling.record, filling, if_neg hne]
  · exact sameBut_singleton _ _

theorem differ_schemaCum (hs : reach h .schemaCum ≠ 0) :
    DifferAt h .schemaCum ((shown h).filling h) ((hidden h .schemaCum).filling h) := by
  have hreach : reach h .schemaCum = 512 * h.schemaPos := by
    rw [reach] at hs ⊢
    split_ifs at hs ⊢
    · exact absurd rfl hs
    · rfl
  rw [hreach] at hs
  have hend : h.schemaPos - 1 + 1 = h.schemaPos := by omega
  apply DifferAt.intro (m := h.schemaPos - 1) (j := 511)
  · rw [hreach]
    change 512 * _ + 511 + 1 = _
    omega
  · intro t ht k
    cases t <;> first | rfl | exact absurd rfl ht
  · intro k hk
    have hne : k + 1 ≠ h.schemaPos := by omega
    simp only [Filling.record, filling, if_neg hne]
  · have hlow : (0x3F01 : UInt16).toNat % 256 = (0x0001 : UInt16).toNat % 256 := by decide
    simp only [Filling.record, filling, if_pos hend]
    exact sameBut_rowBytes hlow

theorem differ {s : Region} (hs : reach h s ≠ 0) :
    DifferAt h s ((shown h).filling h) ((hidden h s).filling h) := by
  cases s with
  | pool => exact differ_pool hs
  | ctxPool => exact differ_ctxPool hs
  | ctxSlot => exact differ_ctxSlot hs
  | bloom => exact differ_bloom hs
  | lmCtx => exact differ_lmCtx hs
  | lmCum => exact differ_lmCum hs
  | schemaModes => exact differ_schemaModes hs
  | schemaCum => exact differ_schemaCum hs

end Marks

end Bcb.Codec
