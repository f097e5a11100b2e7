import Bcb.Codec.Marked

namespace Bcb.Codec

open Lib RangeCoder Bt Prior

theorem lastSlot_eq {h : BcbpHeader} {j : Nat} (hj : h.ctxNslots = 2 ^ j) :
    lastSlot h = 2 ^ min j 32 - 1 := by
  rw [lastSlot, hj]
  rcases Nat.le_total j 32 with hle | hle
  · rw [Nat.min_eq_left hle, Nat.min_eq_left (Nat.pow_le_pow_right (by decide) hle)]
  · rw [Nat.min_eq_right hle, Nat.min_eq_right (Nat.pow_le_pow_right (by decide) hle)]

theorem and_last (j : Nat) : 0xFFFFFFFF &&& 2 ^ j - 1 = 2 ^ min j 32 - 1 := by
  rw [Nat.and_two_pow_sub_one_eq_mod]
  rcases Nat.le_total j 32 with hle | hle
  · obtain ⟨c, hc⟩ := pow_dvd_pow 2 hle
    have hpos := Nat.two_pow_pos j
    have hc0 : c ≠ 0 := by
      rintro rfl
      cases hc
    obtain ⟨d, rfl⟩ := Nat.exists_eq_succ_of_ne_zero hc0
    have hlast : 0xFFFFFFFF = 2 ^ j * d + (2 ^ j - 1) := by
      rw [Nat.mul_succ] at hc
      omega
    rw [Nat.min_eq_left hle, hlast, Nat.mul_add_mod, Nat.mod_eq_of_lt (by omega)]
  · have hlt : 2 ^ 32 ≤ 2 ^ j := Nat.pow_le_pow_right (by decide) hle
    rw [Nat.min_eq_right hle]
    exact Nat.mod_eq_of_lt (by omega)

@[simp] theorem sameCtx_farKey (c : List UInt8) :
    sameCtx (fun i => farKey.getD i 0) 5 c = decide (c = farKey) := by
  by_cases hc : c = farKey
  · subst hc
    decide +kernel
  · rw [decide_eq_false hc, sameCtx, Bool.and_eq_false_iff]
    by_cases hlen : c.length = 5
    · right
      rw [hlen]
      exact decide_eq_false fun h => hc (h.symm.trans (by decide +kernel))
    · left
      exact decide_eq_false fun h => hlen h.symm

namespace Marks

variable {B : Build} {h : BcbpHeader} {x : Marks} {im : Image} {t : Nat → Int} {m : Nat}
  {w : Window}

/-- A prior over an image of a filling, as it is read. -/
def filled (x : Marks) (h : BcbpHeader) (im : Image) (slot : Nat → Int) (mask : Nat) : BcbPrior :=
  priorOf ((x.filling h).image h im) h slot mask

section Bloom

variable (ha : LaidApart h) (hacc : Accepted B h im)

include ha hacc

theorem filled_bloom {k : Nat} (hk : k < h.bloomBytes) :
    (reader (x.filled h im t m) w).bloom k =
      .ok (if k + 1 = h.bloomBytes then x.bloom else 0xFF) :=
  Filling.image_byte ha (fun _ hs => hacc.region_le hs) (s := .bloom) rfl hk

omit ha in
theorem bloomIndex_bytes (ch : UInt32) : (ch.toNat &&& B.bloomMask) / 8 < h.bloomBytes :=
  hacc.bloomBytes ▸ bloomIndex_lt B ch

theorem filled_bloomBit (hb : x.bloom = 0xFF) (ch : UInt32) :
    bloomBit B (reader (x.filled h im t m) w).bloom ch = .ok true := by
  have hbit : ∀ i < 8, (0xFF : UInt8).toNat.testBit i = true := by decide
  rw [bloomBit, filled_bloom ha hacc (bloomIndex_bytes hacc ch), hb, ite_self]
  exact congrArg Except.ok (hbit _ (Nat.mod_lt _ (by decide)))

theorem filled_bloomBit_far (hb : x.bloom = 0) :
    bloomBit B (reader (x.filled h im t m) w).bloom (fnv farKey) = .ok false := by
  have hpow : 2 ^ B.bloomLog = 8 * 2 ^ (B.bloomLog - 3) := by
    have h8 : (8 : Nat) = 2 ^ 3 := rfl
    rw [h8, ← pow_add, Nat.add_sub_cancel' B.three_le_bloomLog]
  have hlast : ((fnv farKey).toNat &&& B.bloomMask) / 8 + 1 = h.bloomBytes := by
    have hle : B.bloomLog ≤ 32 := B.bloomLog_le.trans (by decide)
    have hand : (fnv farKey).toNat &&& B.bloomMask = 2 ^ B.bloomLog - 1 := by
      rw [fnv_farKey]
      exact (and_last _).trans (by rw [Nat.min_eq_left hle])
    have hpos := Nat.two_pow_pos (B.bloomLog - 3)
    rw [hand, hacc.bloomBytes, Build.bloomBits]
    omega
  rw [bloomBit, filled_bloom ha hacc (bloomIndex_bytes hacc _), if_pos hlast, hb]
  exact congrArg Except.ok (Nat.zero_testBit _)

end Bloom

section Slots

variable (ha : LaidApart h) (hacc : Accepted B h im) (hx : x.Fit h)

include ha hacc hx

theorem filled_ctxSlot {k : Nat} (hk : k < h.ctxNslots) :
    (reader (x.filled h im t m) w).ctxSlot k = .ok (if k = lastSlot h then x.slot else -1) :=
  Filling.image_ctxSlot ha (fun _ hs => hacc.region_le hs) hk
    ((hx.tame hacc.nslots_pos).slot k hk)

theorem filled_free {k : Nat} (hk : k < h.ctxNslots) (hne : k ≠ lastSlot h) (c : List UInt8) :
    ctxFindTest (reader (x.filled h im t m) w) c k = .ok (some none) := by
  rw [ctxFindTest, filled_ctxSlot ha hacc hx hk, if_neg hne]
  rfl

theorem filled_ctxPool {k : Nat} (hk : k < h.ctxUsed) :
    (reader (x.filled h im t m) w).ctxPool k = .ok ((x.filling h).ctxPool k) :=
  Filling.image_ctxPool ha (fun _ hs => hacc.region_le hs) hk
    ((hx.tame hacc.nslots_pos).first k hk)

theorem filled_last (c : List UInt8) :
    ctxFindTest (reader (x.filled h im t m) w) c (lastSlot h) =
      .ok (if link x.slot = none then some none
        else if c = farKey then some (some ((x.filling h).ctxPool (lastCtx h))) else none) := by
  have hpos := hacc.nslots_pos
  have hlt : lastSlot h < h.ctxNslots := by
    rw [lastSlot]
    omega
  rw [ctxFindTest, filled_ctxSlot ha hacc hx hlt, if_pos rfl, ok_bind]
  cases hl : link x.slot with
  | none => rfl
  | some k =>
    obtain ⟨hslot, -⟩ := hx.found.resolve_left (by rw [hl]; simp)
    have hk := hx.slot.below k hl
    have hlast : k = lastCtx h := by
      rw [hslot, link, if_neg (by omega), Int.toNat_natCast] at hl
      exact (Option.some.inj hl).symm
    subst hlast
    have hentry : (x.filling h).ctxPool (lastCtx h) =
        ⟨fun i => farKey.getD i 0, 5, x.total, 0, x.first⟩ := if_pos rfl
    dsimp only
    rw [filled_ctxPool ha hacc hx hk, ok_bind, hentry]
    dsimp only
    rw [sameCtx_farKey, if_neg (Option.some_ne_none _)]
    simp only [decide_eq_true_eq]
    rfl

theorem filled_other {c : List UInt8} (hc : c ≠ farKey ∨ link x.slot = none) :
    ctxFindRd (reader (x.filled h im t m) w) c (fnv c) = .ok none := by
  obtain ⟨j, hj⟩ := hacc.validated.pow
  change h.ctxNslots = 2 ^ j at hj
  have hpos := Nat.two_pow_pos j
  have hmask : (reader (x.filled h im t m) w).ctxMask = 2 ^ j - 1 := by
    rw [← hj]
    exact if_neg hacc.nslots_pos.ne'
  rw [ctxFindRd, hmask]
  have hhome : (fnv c).toNat &&& 2 ^ j - 1 < h.ctxNslots := by
    have hle : (fnv c).toNat &&& 2 ^ j - 1 ≤ 2 ^ j - 1 := Nat.and_le_right
    omega
  by_cases hslot : (fnv c).toNat &&& 2 ^ j - 1 = lastSlot h
  · rw [hslot]
    by_cases hnone : link x.slot = none
    · exact Probe.run_stop ((filled_last ha hacc hx c).trans (by rw [if_pos hnone])) _
    · obtain ⟨-, h2⟩ := hx.found.resolve_left hnone
      have hskip := filled_last (t := t) (m := m) (w := w) ha hacc hx c
      rw [if_neg hnone, if_neg (hc.resolve_right hnone)] at hskip
      have hnext : nextSlot (2 ^ j - 1) (lastSlot h) = 0 := by
        rw [nextSlot_min, lastSlot_eq hj, Probe.linear, Nat.sub_add_cancel Nat.one_le_two_pow,
          Nat.mod_self]
      have hlast : 0 ≠ lastSlot h := by
        rw [lastSlot]
        omega
      apply Probe.run_first (j := 1) (by omega)
      · intro k hk
        obtain rfl := Nat.lt_one_iff.1 hk
        exact hskip
      · rw [Function.iterate_one, hnext]
        exact filled_free ha hacc hx hacc.nslots_pos hlast c
  · exact Probe.run_stop (filled_free ha hacc hx hhome hslot c) _

theorem filled_far (hl : link x.slot ≠ none) :
    ctxFindRd (reader (x.filled h im t m) w) farKey (fnv farKey) =
      .ok (some ((x.filling h).ctxPool (lastCtx h))) := by
  obtain ⟨j, hj⟩ := hacc.validated.pow
  change h.ctxNslots = 2 ^ j at hj
  have hmask : (reader (x.filled h im t m) w).ctxMask = 2 ^ j - 1 := by
    rw [← hj]
    exact if_neg hacc.nslots_pos.ne'
  have hhome : (fnv farKey).toNat &&& 2 ^ j - 1 = lastSlot h := by
    rw [fnv_farKey, lastSlot_eq hj]
    exact and_last j
  rw [ctxFindRd, hmask, hhome]
  apply Probe.run_stop
  rw [filled_last ha hacc hx, if_neg hl, if_pos rfl]

theorem filled_pool {k : Nat} (hk : k < h.poolUsed) :
    (snapshot ((x.filling h).image h im) h).cell k = (x.filling h).pool k :=
  BtV3Snapshot.cell_eq (Filling.image_pool ha (fun _ hs => hacc.region_le hs) hk
    ((hx.tame hacc.nslots_pos).next k hk))

/-- No context, unless the window ends with `farKey`, and the way to it is there. -/
theorem activeAt_other {n : Nat} (hc : w.last n ≠ farKey ∨ link x.slot = none ∨ x.bloom = 0) :
    activeAt B (reader (x.filled h im t m) w) n = .ok none := by
  have hwindow : (reader (x.filled h im t m) w).window = w := rfl
  by_cases hother : w.last n ≠ farKey ∨ link x.slot = none
  · obtain ⟨b, hb⟩ : ∃ b, bloomChkRd B (reader (x.filled h im t m) w).bloom (w.last n) =
        .ok b :=
      bloomChkRd_ok (fun i hi => ⟨_, filled_bloom ha hacc (hacc.bloomBytes ▸ hi)⟩) _
    rw [activeAt, hwindow, hb, ok_bind]
    cases b with
    | false => rfl
    | true =>
      simp only [Bool.not_true, Bool.false_eq_true, if_false, filled_other ha hacc hx hother]
      rfl
  · push Not at hother
    obtain ⟨hfar, hslot⟩ := hother
    have hbloom : x.bloom = 0 := (hc.resolve_left (not_not.2 hfar)).resolve_left hslot
    rw [activeAt, hwindow, hfar, bloomChkRd, filled_bloomBit_far ha hacc hbloom]
    rfl

theorem activeAt_far (hacc' : Accepted B h ((x.filling h).image h im)) {n : Nat}
    (hfar : w.last n = farKey) (hslot : link x.slot ≠ none) (hbloom : x.bloom = 0xFF)
    (htotal : x.total ≠ 0) : ∃ l, Chain (x.filling h).next (link x.first) l ∧
      (∀ j ∈ l, j < h.poolUsed) ∧ activeAt B (reader (x.filled h im t m) w) n =
        .ok (some ((x.filling h).ctxPool (lastCtx h), l.map (x.filling h).pool)) := by
  have hwindow : (reader (x.filled h im t m) w).window = w := rfl
  have hentry : (x.filling h).ctxPool (lastCtx h) =
      ⟨fun i => farKey.getD i 0, 5, x.total, 0, x.first⟩ := if_pos rfl
  have hk : lastCtx h < h.ctxUsed := by
    obtain ⟨hslot', -⟩ := hx.found.resolve_left hslot
    apply hx.slot.below
    rw [hslot', link, if_neg (by omega), Int.toNat_natCast]
  have hat : (x.filling h).ctxPool (lastCtx h) = ctxEntryAt ((x.filling h).image h im)
      (h.offCtxPool + ctxEntrySize * lastCtx h) :=
    Except.ok.inj ((filled_ctxPool (w := w) (t := t) (m := m) ha hacc hx hk).symm.trans
      (hacc'.ctxPool hk))
  obtain ⟨l, hl, hlt, hread⟩ := hacc'.nextBytes hk t m w
  rw [← hat] at hl hread
  have hnext : ∀ j ∈ l, (x.filling h).next j = (snapshot ((x.filling h).image h im) h).next j :=
    fun j hj => ((hx.tame hacc.nslots_pos).next_eq ha (fun _ hs => hacc.region_le hs)
      (hlt j hj).1).symm
  have hcell : l.map (snapshot ((x.filling h).image h im) h).cell = l.map (x.filling h).pool :=
    List.map_congr_left fun j hj => filled_pool ha hacc hx (hlt j hj).1
  refine ⟨l, ?_, fun j hj => (hlt j hj).1, ?_⟩
  · rw [hentry] at hl
    exact hl.congr hnext
  · have htotal' : ((x.filling h).ctxPool (lastCtx h)).totalFreq ≠ 0 := by
      rw [hentry]
      exact htotal
    rw [hcell] at hread
    rw [activeAt, hwindow, hfar, bloomChkRd]
    simp only [filled_bloomBit ha hacc hbloom, ok_bind, Bool.not_true, Bool.false_eq_true,
      if_false, filled_far ha hacc hx hslot, if_neg htotal']
    change (nextBytes (reader (x.filled h im t m) w) _ >>= _) = _
    rw [show nextBytes (reader (x.filled h im t m) w) ((x.filling h).ctxPool (lastCtx h)) =
      .ok (l.map (x.filling h).pool) from hread]
    rfl

/-! ## The tables at a window -/

theorem dist_flat (hc : ∀ n, w.last n ≠ farKey ∨ link x.slot = none ∨ x.bloom = 0) :
    btV3DistributionR B true (reader (x.filled h im t m) w) rcScale = .ok flatTable :=
  btV3DistributionR_none fun n => activeAt_other ha hacc hx (hc n)

variable (hacc' : Accepted B h ((x.filling h).image h im)) (hw : w.bytes = farKey)
  (hslot : link x.slot ≠ none) (hbloom : x.bloom = 0xFF)

omit ha hacc hx in
include hw in
theorem last_far {n : Nat} (hn : 5 ≤ n) : w.last n = farKey := by
  have hlen : w.bytes.length - n = 0 := by
    rw [hw]
    exact Nat.sub_eq_zero_of_le hn
  rw [Window.last, hlen, List.drop_zero, hw]

include hw in
theorem activeAt_short {n : Nat} (hn : n < 5) :
    activeAt B (reader (x.filled h im t m) w) n = .ok none := by
  refine activeAt_other ha hacc hx (.inl fun hfar => ?_)
  have hlen := congrArg List.length hfar
  rw [w.last_length (by rw [hw]; exact hn.le)] at hlen
  exact hn.ne hlen

include hacc' hw hslot hbloom

theorem active_sole (htotal : x.total ≠ 0) : ∃ l, Chain (x.filling h).next (link x.first) l ∧
    (∀ j ∈ l, j < h.poolUsed) ∧ ∀ n, 5 ≤ n → activeAt B (reader (x.filled h im t m) w) n =
      .ok (some ((x.filling h).ctxPool (lastCtx h), l.map (x.filling h).pool)) := by
  obtain ⟨l, hl, hlt, -⟩ := activeAt_far (t := t) (m := m) ha hacc hx hacc'
    (last_far hw le_rfl) hslot hbloom htotal
  refine ⟨l, hl, hlt, fun n hn => ?_⟩
  obtain ⟨l', hl', -, hactive⟩ := activeAt_far (t := t) (m := m) ha hacc hx hacc'
    (last_far hw hn) hslot hbloom htotal
  rw [hl.unique hl']
  exact hactive

omit hacc hacc' hw hslot hbloom ha hx in
@[simp] theorem totalFreq_last : ((x.filling h).ctxPool (lastCtx h)).totalFreq = x.total :=
  congrArg CtxEntry.totalFreq (if_pos rfl)

theorem dist_blank (htotal : x.total ≠ 0) (hle : x.total.toNat ≤ 2 ^ 24)
    (hfreq : ∀ l, Chain (x.filling h).next (link x.first) l →
      ∀ j ∈ l, ((x.filling h).pool j).freq = 0) :
    btV3DistributionR B true (reader (x.filled h im t m) w) rcScale = .ok flatTable := by
  obtain ⟨l, hl, -, hactive⟩ := active_sole (t := t) (m := m) ha hacc hx hacc' hw hslot
    hbloom htotal
  apply btV3DistributionR_blank (congrArg List.length hw)
    (fun n hn => activeAt_short ha hacc hx hw hn) hactive
  · rw [totalFreq_last]
    exact hle
  · intro y hy
    obtain ⟨j, hj, rfl⟩ := List.mem_map.1 hy
    exact hfreq l hl j hj

theorem dist_undefined (htotal : x.total.toNat + 256 = 2 ^ 32) (cum : Cum) :
    btV3DistributionR B true (reader (x.filled h im t m) w) rcScale ≠ .ok cum := by
  have hne : x.total ≠ 0 := by
    intro h0
    rw [h0] at htotal
    cases htotal
  obtain ⟨l, -, -, hactive⟩ := active_sole (t := t) (m := m) ha hacc hx hacc' hw hslot
    hbloom hne
  intro hcum
  have hspread := spread_of_sole hactive hcum (congrArg List.length hw)
  rw [totalFreq_last] at hspread
  exact hspread htotal

end Slots

/-! ## With and without the last byte -/

section Marked

variable {s : Region} (ha : LaidApart h) (hacc : Accepted B h im) (hw : w.bytes = farKey)

@[simp] theorem link_index {k : Nat} : link k = some k := by
  rw [link, if_neg (by omega), Int.toNat_natCast]

theorem link_negative {k : Nat} (hk : k < 2 ^ 31) : link (k - 2 ^ 31 : Int) = none :=
  if_pos (by omega)

theorem findable_of_reach {n : Nat} {s : Region} (hn : reach h s = if Findable h then n else 0)
    (hs : reach h s ≠ 0) : Findable h := by
  by_contra hno
  exact hs (hn.trans (if_neg hno))

theorem slot_shown (hfind : Findable h) : link (shown h).slot ≠ none := by
  dsimp only [shown]
  rw [if_pos ⟨hfind.2.2, hfind.2.1⟩, link_index]
  exact Option.some_ne_none _

theorem total_shown (h0 : h.poolUsed ≠ 0) :
    (shown h).total = 0x01000000 ∧ (shown h).total ≠ 0 ∧ (shown h).total.toNat ≤ 2 ^ 24 := by
  have htotal : (shown h).total = 0x01000000 := if_neg h0
  rw [htotal]
  decide

theorem chain_shown (h0 : h.poolUsed ≠ 0) {l : List Nat}
    (hl : Chain ((shown h).filling h).next (link (shown h).first) l) :
    l = if lastEntry h = 0 then [0] else [lastEntry h, 0] := by
  have hfirst : link (shown h).first = some (lastEntry h) := by
    dsimp only [shown]
    rw [if_neg h0, link_index]
  have hzero : ((shown h).filling h).next 0 = none :=
    congrArg link (if_neg fun hk => hk.2 rfl)
  have hend : Chain ((shown h).filling h).next (some 0) [0] := .cons (hzero ▸ .nil)
  rw [hfirst] at hl
  split_ifs with hlast
  · rw [hlast] at hl
    exact hl.unique hend
  · have hnext : ((shown h).filling h).next (lastEntry h) = some 0 :=
      congrArg link (if_pos ⟨rfl, hlast⟩)
    exact hl.unique (.cons (hnext ▸ hend))

include ha hacc hw

theorem dist_shown (hacc' : Accepted B h (((shown h).filling h).image h im)) (hfind : Findable h) :
    btV3DistributionR B true (reader ((shown h).filled h im t m) w) rcScale =
        .ok steepTable ∨
      ∀ cum, btV3DistributionR B true (reader ((shown h).filled h im t m) w) rcScale ≠
        .ok cum := by
  by_cases h0 : h.poolUsed = 0
  · right
    apply dist_undefined ha hacc fit_shown hacc' hw (slot_shown hfind) rfl
    dsimp only [shown]
    rw [if_pos h0]
    rfl
  · left
    obtain ⟨htotal, hne, -⟩ := total_shown h0
    obtain ⟨l, hl, -, hactive⟩ := active_sole (t := t) (m := m) ha hacc fit_shown hacc' hw
      (slot_shown hfind) rfl hne
    rw [chain_shown h0 hl] at hactive
    have hfreq : ∀ j, ((shown h).filling h).pool j =
        ⟨fun _ => 0, 0, 1, if j = 0 then 0x01000000 else 0,
          (((shown h).filling h).pool j).ctxNext⟩ := fun _ => rfl
    apply btV3DistributionR_steep (congrArg List.length hw)
      (fun n hn => activeAt_short ha hacc fit_shown hw hn) hactive (totalFreq_last.trans htotal)
    · intro y hy
      obtain ⟨j, -, rfl⟩ := List.mem_map.1 hy
      rw [hfreq]
      dsimp only
      split_ifs
      · decide
      · exact Nat.zero_le _
    · intro b
      by_cases hb : b = 1
      · rw [if_pos hb, hb]
        split_ifs
        · rfl
        · rfl
      · rw [if_neg hb]
        apply actFreq_eq_zero
        intro y hy
        obtain ⟨j, -, rfl⟩ := List.mem_map.1 hy
        exact fun h1 => hb h1.symm

theorem dist_hidden (hacc' : Accepted B h (((hidden h s).filling h).image h im))
    (hs : reach h s ≠ 0) (hbt : s = .pool ∨ s = .ctxPool ∨ s = .ctxSlot ∨ s = .bloom) :
    btV3DistributionR B true (reader ((hidden h s).filled h im t m) w) rcScale =
      .ok flatTable := by
  rcases hbt with rfl | rfl | rfl | rfl
  · have hfind : Findable h ∧ h.poolUsed ≠ 0 := by
      by_contra hno
      exact hs (if_neg hno)
    obtain ⟨-, hne, hle⟩ := total_shown hfind.2
    have hslot := slot_shown hfind.1
    have hfit : (hidden h .pool).Fit h := fit_hidden .pool
    by_cases hone : h.poolUsed = 1
    · have heq : hidden h .pool = { shown h with freq := 0 } := if_pos hone
      rw [heq] at hacc' hfit ⊢
      exact dist_blank ha hacc hfit hacc' hw hslot rfl hne hle fun l _ j _ => ite_self _
    · have heq : hidden h .pool = { shown h with next := -2 ^ 31 } := if_neg hone
      have hlast : lastEntry h ≠ 0 := by
        rw [lastEntry]
        omega
      have hfirst : link (shown h).first = some (lastEntry h) := by
        dsimp only [shown]
        rw [if_neg hfind.2, link_index]
      rw [heq] at hacc' hfit ⊢
      apply dist_blank ha hacc hfit hacc' hw hslot rfl hne hle
      intro l hl j hj
      have hnext : (filling { shown h with next := -2 ^ 31 } h).next (lastEntry h) = none :=
        congrArg link (if_pos ⟨rfl, hlast⟩)
      have hend : Chain (filling { shown h with next := -2 ^ 31 } h).next
          (some (lastEntry h)) [lastEntry h] := .cons (hnext ▸ .nil)
      change Chain _ (link (shown h).first) l at hl
      rw [hfirst] at hl
      rw [hl.unique hend, List.mem_singleton] at hj
      exact if_neg (hj ▸ hlast)
  · have hfind : Findable h := findable_of_reach rfl hs
    have hslot := slot_shown hfind
    have hfit : (hidden h .ctxPool).Fit h := fit_hidden .ctxPool
    by_cases h0 : h.poolUsed = 0
    · have heq : hidden h .ctxPool = { shown h with total := 0x00FFFF00 } := if_pos h0
      have hfirst : link (shown h).first = none := by
        dsimp only [shown]
        rw [if_pos h0]
        rfl
      rw [heq] at hacc' hfit ⊢
      have hne : (0x00FFFF00 : UInt32) ≠ 0 := by decide
      have hle : (0x00FFFF00 : UInt32).toNat ≤ 2 ^ 24 := by decide
      apply dist_blank ha hacc hfit hacc' hw hslot rfl hne hle
      intro l hl j hj
      change Chain _ (link (shown h).first) l at hl
      rw [hfirst] at hl
      rw [hl.unique .nil] at hj
      cases hj
    · have heq : hidden h .ctxPool = { shown h with first := lastEntry h - 2 ^ 31 } := if_neg h0
      obtain ⟨-, hne, hle⟩ := total_shown h0
      rw [heq] at hacc' hfit ⊢
      apply dist_blank ha hacc hfit hacc' hw hslot rfl hne hle
      intro l hl j hj
      change Chain _ (link (lastEntry h - 2 ^ 31)) l at hl
      rw [link_negative (lastEntry_lt h)] at hl
      rw [hl.unique .nil] at hj
      cases hj
  · apply dist_flat ha hacc (fit_hidden _)
    exact fun n => .inr (.inl (link_negative (lastCtx_lt h)))
  · exact dist_flat ha hacc (fit_hidden _) fun n => .inr (.inr rfl)

end Marked

/-! ## Landmarks -/

section Landmarks

/-- The context of the last landmark. -/
def lastKey (h : BcbpHeader) : List UInt8 := List.replicate (h.lmN - 1) 0 ++ [1]

theorem map_lastByte {n : Nat} (hn : n ≠ 0) (b : UInt8) :
    (List.range n).map (fun i => if i + 1 = n then b else 0) =
      List.replicate (n - 1) 0 ++ [b] := by
  obtain ⟨n, rfl⟩ := Nat.exists_eq_succ_of_ne_zero hn
  rw [List.range_succ, List.map_append, List.map_singleton, if_pos rfl, Nat.succ_sub_one]
  congr 1
  apply List.eq_replicate_iff.2
  refine ⟨by rw [List.length_map, List.length_range], fun c hc => ?_⟩
  obtain ⟨i, hi, rfl⟩ := List.mem_map.1 hc
  have hi := List.mem_range.1 hi
  exact if_neg (by omega)

variable {c : BcbCodec} (ha : LaidApart h) (hacc : Accepted B h im)

include ha hacc

theorem lmBytes_filled {k : Nat} (hk : k < lmRead h) (hn : h.lmN ≠ 0) :
    lmBytes ((x.filling h).image h im) h k =
      if k + 1 = lmRead h then List.replicate (h.lmN - 1) 0 ++ [x.lmByte]
      else List.replicate h.lmN 0 := by
  have hlt : k < h.lmK := by
    have hmod := Nat.mod_le h.lmK (2 ^ 32)
    rw [lmRead] at hk
    omega
  rw [Filling.image_lmBytes ha (fun _ hs => hacc.region_le hs) hlt]
  dsimp only [filling]
  split_ifs with hlast
  · simp only [hlast, true_and, map_lastByte hn]
  · simp only [hlast, false_and, if_false, List.map_const', List.length_range]

variable (hlm : LandmarksReadable (x.filled h im t m).toLandmarks
  (lmBytes ((x.filling h).image h im) h))

include hlm

omit ha hacc in
theorem lmLookup_filled (l : List UInt8) : lmLookup (x.filled h im t m).toLandmarks l =
    .ok ((List.range (lmRead h)).find? fun k =>
      lmBytes ((x.filling h).image h im) h k = l) :=
  lmLookup_eq hlm.read hlm.lt hlm.index l

omit ha hacc in
theorem landmarkDist_none (hc : h.lmN ≤ c.window.bytes.length →
    ∀ k < lmRead h, lmBytes ((x.filling h).image h im) h k ≠ c.window.last h.lmN) :
    landmarkDist (x.filled h im t m) c rcScale = .ok none := by
  rw [landmarkDist]
  split_ifs with hcond
  · have hlookup : lmLookup (x.filled h im t m).toLandmarks (c.window.last h.lmN) =
        .ok none := by
      rw [lmLookup_filled hlm]
      refine congrArg Except.ok (List.find?_eq_none.2 fun k hk => ?_)
      have hne := hc hcond.2.2 k (List.mem_range.1 hk)
      simpa using hne
    change (lmLookup _ (c.window.last h.lmN) >>= _) = _
    rw [hlookup]
    rfl
  · rfl

theorem landmarkDist_last (hk : lmRead h ≠ 0) (hn : h.lmN ≠ 0) (hb : x.lmByte = 1)
    (hw : c.window.bytes = lastKey h) :
    landmarkDist (x.filled h im t m) c rcScale =
      .ok (if cumOf (fun b => (lastWidth x.lmWidth b).toNat) 256 = rcScale then
        some (cumOf fun b => (lastWidth x.lmWidth b).toNat) else none) := by
  have hlen : c.window.bytes.length = h.lmN := by
    rw [hw, lastKey, List.length_append, List.length_replicate, List.length_singleton]
    omega
  have hlast : c.window.last h.lmN = lastKey h := by
    rw [Window.last, hlen, Nat.sub_self, List.drop_zero, hw]
  have hend : lmRead h - 1 + 1 = lmRead h := by omega
  have hlt : lmRead h - 1 < h.lmK := by
    have hmod := Nat.mod_le h.lmK (2 ^ 32)
    have hle : lmRead h ≤ h.lmK % 2 ^ 32 := Nat.min_le_left _ _
    omega
  have hlookup : lmLookup (x.filled h im t m).toLandmarks (c.window.last h.lmN) =
      .ok (some (lmRead h - 1)) := by
    rw [lmLookup_filled hlm, hlast]
    refine congrArg Except.ok (List.find?_range_eq_some.2 ⟨?_, ?_, ?_⟩)
    · rw [lmBytes_filled ha hacc (by omega) hn, if_pos hend, hb]
      exact decide_eq_true rfl
    · exact List.mem_range.2 (by omega)
    · intro j hj
      rw [lmBytes_filled ha hacc (by omega) hn, if_neg (by omega)]
      have hne : List.replicate h.lmN 0 ≠ lastKey h := by
        intro heq
        have hmem : (1 : UInt8) ∈ List.replicate h.lmN 0 := by
          rw [heq, lastKey]
          simp
        exact absurd (List.eq_of_mem_replicate hmem) (by decide)
      simpa using hne
  have hrow : (x.filled h im t m).lmCum (lmRead h - 1) =
      .ok fun b => (lastWidth x.lmWidth b).toNat :=
    Filling.image_row ha (fun _ hs => hacc.region_le hs) (s := .lmCum) rfl
      (congrArg rowBytes (if_pos hend)) hlt
  have hcond : (x.filled h im t m).lmK ≠ 0 ∧ rcScale = rcScale ∧
      (x.filled h im t m).lmN ≤ c.window.bytes.length := by
    refine ⟨fun h0 => hk ?_, rfl, hlen.ge⟩
    rw [lmRead, show h.lmK % 2 ^ 32 = 0 from h0]
    rfl
  rw [landmarkDist, if_pos hcond]
  change (lmLookup _ (c.window.last h.lmN) >>= _) = _
  rw [hlookup, ok_bind]
  dsimp only
  rw [hrow]
  rfl

theorem landmarkDist_without (hn : h.lmN ≠ 0) (hb : x.lmByte = 0)
    (hw : c.window.bytes = lastKey h) :
    landmarkDist (x.filled h im t m) c rcScale = .ok none := by
  apply landmarkDist_none hlm
  intro _ k hk heq
  have hlen : c.window.bytes.length - h.lmN = 0 := by
    rw [hw, lastKey, List.length_append, List.length_replicate, List.length_singleton]
    omega
  have hone : (1 : UInt8) ∈ c.window.last h.lmN := by
    rw [Window.last, hlen, List.drop_zero, hw]
    exact List.mem_append_right _ (List.mem_singleton_self 1)
  have hne : (1 : UInt8) ≠ 0 := by decide
  rw [← heq, lmBytes_filled ha hacc hk hn, hb] at hone
  split_ifs at hone
  · rcases List.mem_append.1 hone with hmem | hmem
    · exact hne (List.eq_of_mem_replicate hmem)
    · exact hne (List.mem_singleton.1 hmem)
  · exact hne (List.eq_of_mem_replicate hone)

end Landmarks

end Marks

end Bcb.Codec
