import Bcb.Bt.Training

namespace Bcb.Bt

open Lib

variable {B : Build} {T : Counts} {g : Globals} {w : Window} {n : Nat}

/-- The entry at the end of a search. -/
def hitEntry (t : Table CtxEntry) : Hit → Option CtxEntry
  | .free _ => none
  | .found i => some (t.pool i)

theorem ctxFindTest_reader (B : Build) (g : Globals) (w : Window) (ctx : List UInt8) (h : Nat) :
    ctxFindTest (g.reader B w) ctx h =
      (Table.searchTest (ctxSame ctx) g.ctx h).map (Option.map (hitEntry g.ctx)) := by
  change (g.ctx.readSlot h >>= _) = Except.map _ (g.ctx.readSlot h >>= _)
  cases g.ctx.readSlot h with
  | error e => rfl
  | ok s =>
    rw [ok_bind, ok_bind]
    cases hl : link s with
    | none => rfl
    | some i =>
      change (g.ctx.read i >>= _) = Except.map _ (g.ctx.read i >>= _)
      unfold Table.read
      split_ifs
      · change Except.ok (if ctxSame ctx (g.ctx.pool i) = true then _ else _) = Except.ok _
        split_ifs <;> rfl
      · rfl

theorem ctxFindRd_reader (hs : g.ctx.Sized) (w : Window) (ctx : List UInt8) (ch : UInt32) :
    ctxFindRd (g.reader B w) ctx ch =
      (g.ctx.search (ctxSame ctx) ch).map (hitEntry g.ctx) := by
  obtain ⟨k, hk⟩ := hs.size
  have hmask : g.ctx.mask + 1 = g.ctx.nslots := by
    have hpos := Nat.two_pow_pos k
    rw [hs.mask]
    omega
  rw [ctxFindRd, Table.search]
  change Probe.run _ _ _ (g.ctx.mask + 1) _ = _
  rw [hmask]
  exact Probe.run_map (ctxFindTest_reader B g w ctx) _ _

theorem bloomBit_reader (g : Globals) (w : Window) (ch : UInt32) :
    bloomBit B (g.reader B w).bloom ch =
      .ok ((g.bloom ((ch.toNat &&& B.bloomMask) / 8)).toNat.testBit (ch.toNat % 8)) := by
  have hread : (g.reader B w).bloom ((ch.toNat &&& B.bloomMask) / 8) =
      .ok (g.bloom ((ch.toNat &&& B.bloomMask) / 8)) := if_pos (bloomIndex_lt B ch)
  rw [bloomBit, hread]
  rfl

theorem bloomChkRd_reader (B : Build) (ctx : List UInt8) (g : Globals) (w : Window) :
    ∃ b, bloomChkRd B (g.reader B w).bloom ctx = .ok b ∧ (BloomHas B g.bloom ctx → b = true) := by
  simp only [bloomChkRd, bloomBit_reader, ok_bind]
  cases h1 : (g.bloom (((fnv ctx).toNat &&& B.bloomMask) / 8)).toNat.testBit
      ((fnv ctx).toNat % 8) with
  | false => exact ⟨false, rfl, fun h => absurd h.1 (by rw [bloomHasBit, h1]; decide)⟩
  | true => exact ⟨_, rfl, fun h => h.2⟩

theorem Represents.activeAt_absent (h : Represents B T g) (hroom : g.ctx.used < g.ctx.reach)
    (hle : g.ctx.used ≤ 2 ^ 31) (hc : w.last n ∉ T.ctxs) :
    activeAt B (g.reader B w) n = .ok none := by
  have hnew : ∀ i < g.ctx.named, ¬ ctxSame (w.last n) (g.ctx.pool i) = true := fun i hi hs =>
    hc ((h.ctx.exists_same hle).1 ⟨i, hi, hs⟩)
  obtain ⟨s, hsearch, -⟩ := h.ctx.indexed.search_free (g.ctx.named_le.trans_lt hroom) hnew
    (fnv (w.last n))
  have hfind : ctxFindRd (g.reader B w) (w.last n) (fnv (w.last n)) = .ok none := by
    rw [ctxFindRd_reader h.ctx.indexed.toSized, hsearch]
    rfl
  obtain ⟨b, hb, -⟩ := bloomChkRd_reader B (w.last n) g w
  have hlast : (g.reader B w).window.last n = w.last n := rfl
  simp only [activeAt, hlast, hb, hfind, ok_bind]
  cases b <;> rfl

/-- In a full table a context without a place is not even missed: the search for it never ends. -/
theorem Represents.activeAt_lost (h : Represents B T g) (hfull : g.ctx.reach ≤ g.ctx.used)
    (hle : g.ctx.used ≤ 2 ^ 31) (hc : w.last n ∉ T.ctxs) (hbloom : BloomHas B g.bloom (w.last n)) :
    activeAt B (g.reader B w) n = .error .diverge := by
  have hnew : ∀ i < g.ctx.named, ¬ ctxSame (w.last n) (g.ctx.pool i) = true := fun i hi hs =>
    hc ((h.ctx.exists_same hle).1 ⟨i, hi, hs⟩)
  have hfind : ctxFindRd (g.reader B w) (w.last n) (fnv (w.last n)) = .error .diverge := by
    rw [ctxFindRd_reader h.ctx.indexed.toSized,
      h.ctx.indexed.search_full ((g.ctx.named_eq hle).symm ▸ hfull) hnew]
    rfl
  obtain ⟨b, hb, htrue⟩ := bloomChkRd_reader B (w.last n) g w
  have hlast : (g.reader B w).window.last n = w.last n := rfl
  obtain rfl := htrue hbloom
  simp only [activeAt, hlast, hb, hfind, ok_bind]
  rfl

theorem Represents.nextBytes_eq (h : Represents B T g) (hle : T.pairs.length ≤ 2 ^ 31) {i : Nat}
    {c : List UInt8} (hi : T.ctxs[i]? = some c) :
    nextBytes (g.reader B w) (g.ctx.pool i) = .ok ((T.chain c).map g.bt.pool) := by
  have hplaces : ∀ j ∈ T.chain c, j < T.pairs.length := by
    intro j hj
    obtain ⟨b, hb, -⟩ := h.sound.chain_pairs _ j hj
    exact (List.getElem?_eq_some_iff.1 hb).1
  have hlen : (T.chain c).length ≤ T.pairs.length := by
    have hsub : T.chain c ⊆ List.range T.pairs.length :=
      fun j hj => List.mem_range.2 (hplaces j hj)
    have hcard := ((h.sound.chain_nodup _).subperm hsub).length_le
    rwa [List.length_range] at hcard
  refine Chain.walk_eq ?_ ?_ (Nat.lt_succ_of_le (hlen.trans hle))
  · exact (h.ctx.entry i _ hi).chain
  · intro j hj
    exact Table.read_ok ((h.bt.used ▸ hplaces j hj).trans_le h.bt.indexed.used_le)

theorem Represents.chain_bytes_nodup (h : Represents B T g) (c : List UInt8) :
    ((T.chain c).map fun j => (g.bt.pool j).nextByte).Nodup := by
  have hbyte : ∀ {j b}, T.pairs[j]? = some (c, b) → (g.bt.pool j).nextByte = b := fun hj =>
    (btSame_iff.1 (h.bt.same _ _ hj)).1
  apply List.Nodup.map_on _ (h.sound.chain_nodup c)
  intro i hi j hj heq
  obtain ⟨b, hb, -⟩ := h.sound.chain_pairs c i hi
  obtain ⟨b', hb', -⟩ := h.sound.chain_pairs c j hj
  rw [hbyte hb, hbyte hb'] at heq
  obtain ⟨hlt, -⟩ := List.getElem?_eq_some_iff.1 hb
  exact (List.getElem?_inj hlt h.sound.pairs_nodup).1 (hb.trans (heq ▸ hb'.symm))

theorem Represents.activeAt_found (h : Represents B T g) (hle : T.pairs.length ≤ 2 ^ 31) {i : Nat}
    (hi : T.ctxs[i]? = some (w.last n)) : activeAt B (g.reader B w) n =
      .ok (if (g.ctx.pool i).totalFreq = 0 then none
        else some (g.ctx.pool i, (T.chain (w.last n)).map g.bt.pool)) := by
  have hmem := List.mem_of_getElem? hi
  have hused : g.ctx.used ≤ 2 ^ 31 := h.ctx.used ▸ h.sound.ctxs_length_le.trans hle
  obtain ⟨j, hj, hsame, hsearch⟩ := h.ctx.indexed.search_found
    (fun i _ hs => ctxHash_of_same hs) ((h.ctx.exists_same hused).2 hmem)
  have hji : j = i := by
    have hj' := (h.ctx.same_iff (hj.trans_le g.ctx.named_le)).1 hsame
    obtain ⟨hlt, -⟩ := List.getElem?_eq_some_iff.1 hj'
    exact (List.getElem?_inj hlt h.sound.ctxs_nodup).1 (hj'.trans hi.symm)
  rw [hji] at hsearch
  have hfind : ctxFindRd (g.reader B w) (w.last n) (fnv (w.last n)) = .ok (some (g.ctx.pool i)) := by
    rw [ctxFindRd_reader h.ctx.indexed.toSized, hsearch]
    rfl
  have hseen : w.last n ∈ T.seen := by
    obtain ⟨b, hb⟩ := h.sound.ctxs_pairs _ hmem
    exact h.sound.pairs_seen _ hb
  obtain ⟨b, hb, htrue⟩ := bloomChkRd_reader B (w.last n) g w
  obtain rfl := htrue (h.bloom _ hseen)
  have hchain := h.nextBytes_eq (B := B) (w := w) hle hi
  have hlast : (g.reader B w).window.last n = w.last n := rfl
  simp only [activeAt, hlast, hb, hfind, ok_bind, hchain, Bool.not_true, Bool.false_eq_true,
    if_false]
  split_ifs <;> rfl

end Bcb.Bt
