import Bcb.Bt.Lookups
import Bcb.Bt.Table
import Bcb.Lib.OpenAddr

namespace Bcb.Bt

open Lib Probe OpenAddr

variable {α : Type}

namespace Table

/-- The slots that a 32-bit index reaches. -/
def reach (t : Table α) : Nat := min t.nslots (2 ^ 32)

/-- The entries with an index that is no negative `int`. -/
def named (t : Table α) : Nat := min t.used (2 ^ 31)

/-- The slot where the search for an entry starts. -/
def home (hash : α → UInt32) (t : Table α) (i : Nat) : Nat := (hash (t.pool i)).toNat % t.reach

/-- The first free slot for a key. -/
def FreeAt (t : Table α) (key : UInt32) (h : Nat) : Prop :=
  ∃ d < t.reach, h = (linear t.reach)^[d] (key.toNat % t.reach) ∧ (link ∘ t.slot) h = none ∧
    ∀ k < d, (link ∘ t.slot) ((linear t.reach)^[k] (key.toNat % t.reach)) ≠ none

structure Sized (t : Table α) : Prop where
  size : ∃ k, t.nslots = 2 ^ k
  mask : t.mask = t.nslots - 1

structure Indexed (hash : α → UInt32) (t : Table α) : Prop extends Sized t where
  used_le : t.used ≤ t.cap
  filled : ∃ dist, Filled t.reach (link ∘ t.slot) (t.home hash) dist t.named

variable {hash : α → UInt32} {same : α → Bool} {key : UInt32} {t : Table α}

theorem read_ok {i : Nat} (h : i < t.cap) : t.read i = .ok (t.pool i) := if_pos h

theorem reach_le (t : Table α) : t.reach ≤ t.nslots := Nat.min_le_left _ _

theorem reach_le_index (t : Table α) : t.reach ≤ 2 ^ 32 := Nat.min_le_right _ _

theorem named_le (t : Table α) : t.named ≤ t.used := Nat.min_le_left _ _

theorem named_eq (h : t.used ≤ 2 ^ 31) : t.named = t.used := Nat.min_eq_left h

theorem readSlot_ok {h : Nat} (hh : h < t.reach) : t.readSlot h = .ok (t.slot h) :=
  if_pos (hh.trans_le t.reach_le)

namespace Sized

variable (hs : Sized t)

include hs

theorem reach_eq : ∃ k, t.nslots = 2 ^ k ∧ t.reach = 2 ^ min k 32 := by
  obtain ⟨k, hk⟩ := hs.size
  refine ⟨k, hk, ?_⟩
  rw [reach, hk]
  rcases Nat.le_total k 32 with h | h
  · rw [Nat.min_eq_left h, Nat.min_eq_left (Nat.pow_le_pow_right (by decide) h)]
  · rw [Nat.min_eq_right h, Nat.min_eq_right (Nat.pow_le_pow_right (by decide) h)]

theorem pos : 0 < t.reach := by
  obtain ⟨k, -, hk⟩ := hs.reach_eq
  rw [hk]
  exact Nat.two_pow_pos _

theorem next_eq : nextSlot t.mask = linear t.reach := by
  obtain ⟨k, hn, hr⟩ := hs.reach_eq
  rw [hs.mask, hn, hr, nextSlot_min]

theorem start_eq (key : UInt32) : key.toNat &&& t.mask = key.toNat % t.reach := by
  obtain ⟨k, hn, hr⟩ := hs.reach_eq
  have hkey := key.toNat_lt
  rw [hs.mask, hn, hr, Nat.and_two_pow_sub_one_eq_mod]
  rcases Nat.le_total k 32 with h | h
  · rw [Nat.min_eq_left h]
  · rw [Nat.min_eq_right h, Nat.mod_eq_of_lt hkey]
    exact Nat.mod_eq_of_lt (hkey.trans_le (Nat.pow_le_pow_right (by decide) h))

theorem start_lt (key : UInt32) : key.toNat % t.reach < t.reach := Nat.mod_lt _ hs.pos

theorem freeSlot_eq {home dist : Nat → Nat} {m : Nat}
    (hF : Filled t.reach (link ∘ t.slot) home dist m) (hm : m < t.reach) (key : UInt32) :
    ∃ h, t.freeSlot (key.toNat &&& t.mask) = .ok h ∧ t.FreeAt key h := by
  obtain ⟨d, hd, hfree, hpath⟩ := hF.free hm (hs.start_lt key)
  refine ⟨_, ?_, d, hd, rfl, hfree, hpath⟩
  have hlink : ∀ s, (link ∘ t.slot) s = none ↔ ¬ 0 ≤ t.slot s := by
    intro s
    simp [link]
  have htest : ∀ k, (do
      let s ← t.readSlot ((linear t.reach)^[k] (key.toNat % t.reach))
      return if 0 ≤ s then none else some ((linear t.reach)^[k] (key.toNat % t.reach)) :
        Outcome (Option Nat)) =
      .ok (if 0 ≤ t.slot ((linear t.reach)^[k] (key.toNat % t.reach)) then none
        else some ((linear t.reach)^[k] (key.toNat % t.reach))) := by
    intro k
    rw [readSlot_ok (linear_iterate_lt (hs.start_lt key) k)]
    rfl
  rw [freeSlot, hs.next_eq, hs.start_eq]
  apply run_first (hd.trans_le t.reach_le)
  · intro k hk
    rw [htest, if_pos (not_not.1 ((hlink _).not.1 (hpath k hk)))]
  · rw [htest, if_neg ((hlink _).1 hfree)]

end Sized

/-- The entry goes to its free slot, which stays free where its index is negative. -/
theorem FreeAt.insert {home dist : Nat → Nat} {h m : Nat} (hfree : t.FreeAt key h)
    (hF : Filled t.reach (link ∘ t.slot) home dist (min m (2 ^ 31))) (hm : m < 2 ^ 32)
    (hhome : home m = key.toNat % t.reach) (hpos : 0 < t.reach) :
    ∃ dist', Filled t.reach (link ∘ Function.update t.slot h (toInt32 m)) home dist'
      (min (m + 1) (2 ^ 31)) := by
  obtain ⟨d, hd, rfl, hnone, hpath⟩ := hfree
  rw [← hhome] at hnone hpath ⊢
  rw [Function.comp_update, link_toInt32 hm]
  split_ifs with hlt
  · rw [Nat.min_eq_left (by omega)] at hF ⊢
    exact ⟨_, hF.insert (hhome ▸ Nat.mod_lt _ hpos) hd hnone hpath⟩
  · have hsame : min (m + 1) (2 ^ 31) = min m (2 ^ 31) := by omega
    rw [hsame, ← hnone, Function.update_eq_self]
    exact ⟨dist, hF⟩

theorem rehash_range (hash : α → UInt32) (hs : Sized t) (hempty : t.slot = fun _ => -1) {m : Nat}
    (hm : m ≤ t.reach)
    (hcap : m ≤ t.cap) : ∃ slot,
      (List.range m).foldlM (rehash hash) t = .ok { t with slot := slot } ∧
      ∃ dist, Filled t.reach (link ∘ slot) (t.home hash) dist (min m (2 ^ 31)) := by
  induction m with
  | zero =>
    refine ⟨t.slot, rfl, fun _ => 0, ?_⟩
    rw [hempty, Nat.zero_min]
    exact Filled.empty _ _ _
  | succ m ih =>
    obtain ⟨slot, hrun, dist, hF⟩ := ih (by omega) (by omega)
    have hle := t.reach_le_index
    have hs' : Sized { t with slot := slot } := ⟨hs.size, hs.mask⟩
    have hlt : min m (2 ^ 31) < t.reach := by omega
    obtain ⟨h, hfree, hat⟩ := hs'.freeSlot_eq hF hlt (hash (t.pool m))
    refine ⟨Function.update slot h (toInt32 m), ?_, hat.insert hF (by omega) rfl hs.pos⟩
    have hread : Table.read { t with slot := slot } m = .ok (t.pool m) :=
      read_ok (Nat.lt_of_succ_le hcap)
    rw [List.range_succ, List.foldlM_append, hrun, ok_bind, List.foldlM_cons, rehash, hread,
      ok_bind]
    dsimp only
    rw [hfree]
    rfl

/-- What a growth makes of the sizes: both reallocs, the first only, or none. -/
def grownSizes (dynamic : Bool) (al : Growth) (t : Table α) : Nat × Nat :=
  if dynamic && al.pool then
    if al.slot then (t.cap * 2, t.nslots * 2) else (t.cap * 2, t.nslots)
  else (t.cap, t.nslots)

/-- Whether a growth succeeds. -/
def grows (dynamic : Bool) (al : Growth) : Bool := dynamic && al.pool && al.slot

namespace Indexed

theorem empty (hash : α → UInt32) (pool : Nat → α) (cap : Nat) {nslots : Nat}
    (h : ∃ k, nslots = 2 ^ k) :
    Indexed hash ⟨pool, 0, cap, fun _ => -1, nslots, nslots - 1⟩ where
  size := h
  mask := rfl
  used_le := Nat.zero_le cap
  filled := ⟨fun _ => 0, Filled.empty _ _ _⟩

theorem grow_spec (h : Indexed hash t) (hused : t.used ≤ t.reach) (dynamic : Bool)
    (al : Growth) :
    ∃ t', t.grow dynamic al hash = .ok (grows dynamic al, t') ∧ Indexed hash t' ∧
      t'.pool = t.pool ∧ t'.used = t.used ∧ (t'.cap, t'.nslots) = grownSizes dynamic al t := by
  have hle := h.used_le
  cases hd : dynamic && al.pool with
  | false =>
    refine ⟨t, ?_, h, rfl, rfl, by simp [grownSizes, hd]⟩
    rcases Bool.and_eq_false_iff.1 hd with hdyn | hpool
    · simp only [grow, grows, hdyn, Bool.not_false, if_true, Bool.false_and]
      rfl
    · simp only [grow, grows, hpool, Bool.not_false, if_true, Bool.and_false, Bool.false_and]
      split_ifs <;> rfl
  | true =>
    obtain ⟨hdyn, hpool⟩ := Bool.and_eq_true_iff.1 hd
    cases hslot : al.slot with
    | false =>
      refine ⟨{ t with cap := t.cap * 2 }, ?_, ⟨⟨h.size, h.mask⟩, ?_, h.filled⟩, rfl, rfl,
        by simp [grownSizes, hdyn, hpool, hslot]⟩
      · simp only [grow, grows, hdyn, hpool, hslot, Bool.not_true, Bool.not_false,
          Bool.false_eq_true, if_false, if_true, Bool.and_false]
        rfl
      · change t.used ≤ t.cap * 2
        omega
    | true =>
      obtain ⟨k, hk⟩ := h.size
      have hs : Sized t.doubled := ⟨⟨k + 1, by rw [doubled, hk, pow_succ]⟩, rfl⟩
      have hreach : t.reach ≤ t.doubled.reach := by
        simp only [reach, doubled]
        omega
      obtain ⟨slot, hrun, hF⟩ := rehash_range hash hs rfl (m := t.used)
        (hused.trans hreach) (by change t.used ≤ t.cap * 2; omega)
      refine ⟨{ t.doubled with slot := slot }, ?_, ⟨⟨hs.size, hs.mask⟩, ?_, hF⟩, rfl, rfl,
        by simp [grownSizes, hdyn, hpool, hslot, doubled]⟩
      · simp only [grow, grows, hdyn, hpool, hslot, Bool.not_true, Bool.false_eq_true, if_false,
          hrun, ok_bind, Bool.and_true]
        rfl
      · change t.used ≤ t.cap * 2
        omega

theorem named_le_reach (h : Indexed hash t) : t.named ≤ t.reach := by
  obtain ⟨dist, hF⟩ := h.filled
  exact hF.le

theorem searchTest_other (h : Indexed hash t) {s : Nat} (hs : s < t.reach)
    (hother : ∃ j, (link ∘ t.slot) s = some j ∧ j < t.named ∧ ¬ same (t.pool j) = true) :
    searchTest same t s = .ok none := by
  obtain ⟨j, hj, hjn, hne⟩ := hother
  rw [Function.comp_apply] at hj
  have hread : t.read j = .ok (t.pool j) := read_ok ((hjn.trans_le t.named_le).trans_le h.used_le)
  simp only [searchTest, readSlot_ok hs, ok_bind, hj, hread, if_neg hne]
  rfl

theorem search_found (h : Indexed hash t)
    (hsame : ∀ i < t.named, same (t.pool i) = true → hash (t.pool i) = key)
    (hex : ∃ i < t.named, same (t.pool i) = true) :
    ∃ i < t.named, same (t.pool i) = true ∧ t.search same key = .ok (.found i) := by
  obtain ⟨dist, hF⟩ := h.filled
  have hstart := h.start_lt key
  have hhome : ∀ i < t.named, same (t.pool i) = true → t.home hash i = key.toNat % t.reach := by
    intro i hi hsi
    rw [home, hsame i hi hsi]
  obtain ⟨i, hi, his, -, d, hd, hslot, hpath⟩ := hF.first hstart hhome hex
  refine ⟨i, hi, his, ?_⟩
  have hread : t.read i = .ok (t.pool i) := read_ok ((hi.trans_le t.named_le).trans_le h.used_le)
  rw [search, h.next_eq, h.start_eq]
  apply run_first (hd.trans_le t.reach_le)
  · exact fun k hk => h.searchTest_other (linear_iterate_lt hstart k) (hpath k hk)
  · rw [Function.comp_apply] at hslot
    simp only [searchTest, readSlot_ok (linear_iterate_lt hstart d), ok_bind, hslot, hread,
      if_pos his]
    rfl

theorem search_free (h : Indexed hash t) (hroom : t.named < t.reach)
    (hnew : ∀ i < t.named, ¬ same (t.pool i) = true) (key : UInt32) :
    ∃ s, t.search same key = .ok (.free s) ∧ t.FreeAt key s := by
  obtain ⟨dist, hF⟩ := h.filled
  have hstart := h.start_lt key
  obtain ⟨d, hd, hnone, hpath⟩ := hF.free hroom hstart
  refine ⟨_, ?_, d, hd, rfl, hnone, hpath⟩
  rw [search, h.next_eq, h.start_eq]
  apply run_first (hd.trans_le t.reach_le)
  · intro k hk
    have hlt := linear_iterate_lt hstart k
    exact h.searchTest_other hlt (hF.other_of_ne hnew hlt (hpath k hk))
  · rw [Function.comp_apply] at hnone
    simp only [searchTest, readSlot_ok (linear_iterate_lt hstart d), ok_bind, hnone]
    rfl

/-- In a full table a search for what it does not hold never ends. -/
theorem search_full (h : Indexed hash t) (hfull : t.reach ≤ t.named)
    (hnew : ∀ i < t.named, ¬ same (t.pool i) = true) (key : UInt32) :
    t.search same key = .error .diverge := by
  obtain ⟨dist, hF⟩ := h.filled
  have hstart := h.start_lt key
  have hall : ∀ {s : Nat}, s < t.reach → (link ∘ t.slot) s ≠ none := by
    rw [h.named_le_reach.antisymm hfull] at hF
    exact hF.full
  rw [search, h.next_eq, h.start_eq]
  apply run_stuck
  intro k _
  have hlt := linear_iterate_lt hstart k
  exact h.searchTest_other hlt (hF.other_of_ne hnew hlt (hall hlt))

theorem put (h : Indexed hash t) {e : α} {s : Nat} (hfree : t.FreeAt (hash e) s)
    (hcap : t.used < t.cap) (hint : t.used < 2 ^ 32) : Indexed hash (t.put s t.used e) := by
  obtain ⟨dist, hF⟩ := h.filled
  refine ⟨⟨h.size, h.mask⟩, hcap, ?_⟩
  have hold : ∀ i < t.named, (t.put s t.used e).home hash i = t.home hash i := by
    intro i hi
    have hne : i ≠ t.used := (hi.trans_le t.named_le).ne
    simp only [home, Table.put, Function.update_of_ne hne]
    rfl
  have hnew : (t.put s t.used e).home hash t.used = (hash e).toNat % t.reach := by
    simp only [home, Table.put, Function.update_self]
    rfl
  exact hfree.insert (hF.congr_home hold) hint hnew h.pos

theorem modify (h : Indexed hash t) {i : Nat} {f : α → α}
    (hf : hash (f (t.pool i)) = hash (t.pool i)) : Indexed hash (t.modify i f) := by
  obtain ⟨dist, hF⟩ := h.filled
  refine ⟨⟨h.size, h.mask⟩, h.used_le, dist, hF.congr_home ?_⟩
  intro j _
  by_cases hj : j = i
  · subst hj
    simp only [home, Table.modify, Function.update_self, hf]
    rfl
  · simp only [home, Table.modify, Function.update_of_ne hj]
    rfl

end Indexed

/-- Whether a new entry finds room, or a growth makes it. -/
def hasRoom (dynamic : Bool) (al : Growth) (t : Table α) : Bool :=
  t.used < t.cap || grows dynamic al

/-- The sizes once room has been looked for. -/
def placedSizes (dynamic : Bool) (al : Growth) (t : Table α) : Nat × Nat :=
  if t.used < t.cap then (t.cap, t.nslots) else grownSizes dynamic al t

/-- The table after a search for a key it does not hold. -/
structure Placed (hash : α → UInt32) (dynamic : Bool) (al : Growth) (t t' : Table α) : Prop where
  indexed : Indexed hash t'
  pool : t'.pool = t.pool
  used : t'.used = t.used
  sizes : (t'.cap, t'.nslots) = placedSizes dynamic al t

theorem Indexed.place_found (h : Indexed hash t)
    (hsame : ∀ i < t.named, same (t.pool i) = true → hash (t.pool i) = key)
    (hex : ∃ i < t.named, same (t.pool i) = true) (dynamic : Bool) (al : Growth) :
    ∃ i < t.named, same (t.pool i) = true ∧
      t.place dynamic al hash same key 2 = .ok (some (.found i), t) := by
  obtain ⟨i, hi, his, hrun⟩ := h.search_found hsame hex
  refine ⟨i, hi, his, ?_⟩
  rw [place, hrun]
  rfl

theorem Indexed.place_full (h : Indexed hash t) (hfull : t.reach ≤ t.named)
    (hnew : ∀ i < t.named, ¬ same (t.pool i) = true) (dynamic : Bool) (al : Growth)
    (key : UInt32) : t.place dynamic al hash same key 2 = .error .diverge := by
  rw [place, h.search_full hfull hnew]
  rfl

theorem Indexed.place_new (h : Indexed hash t) (hcap : 0 < t.cap) (hroom : t.used < t.reach)
    (hnew : ∀ i < t.named, ¬ same (t.pool i) = true) (dynamic : Bool) (al : Growth)
    (key : UInt32) :
    ∃ t', Placed hash dynamic al t t' ∧
      if hasRoom dynamic al t then ∃ s, t.place dynamic al hash same key 2 =
        .ok (some (.free s), t') ∧ t'.FreeAt key s ∧ t'.used < t'.cap
      else t.place dynamic al hash same key 2 = .ok (none, t') := by
  obtain ⟨s, hrun, hfree⟩ := h.search_free (t.named_le.trans_lt hroom) hnew key
  by_cases hlt : t.used < t.cap
  · refine ⟨t, ⟨h, rfl, rfl, by rw [placedSizes, if_pos hlt]⟩, ?_⟩
    rw [if_pos (by simp [hasRoom, hlt])]
    refine ⟨s, ?_, hfree, hlt⟩
    simp only [place, hrun, ok_bind, if_pos hlt]
    rfl
  · obtain ⟨t', hgrow, h', hpool, hused, hsizes⟩ := h.grow_spec hroom.le dynamic al
    refine ⟨t', ⟨h', hpool, hused, by rw [placedSizes, if_neg hlt, hsizes]⟩, ?_⟩
    cases hok : grows dynamic al with
    | false =>
      rw [if_neg (by simp [hasRoom, hlt, hok])]
      simp only [place, hrun, ok_bind, if_neg hlt, hgrow, hok, Bool.false_eq_true, if_false]
      rfl
    | true =>
      obtain ⟨hd, hslot⟩ := Bool.and_eq_true_iff.1 hok
      simp only [grownSizes, hd, hslot, if_true, Prod.mk.injEq] at hsizes
      have hroom' : t'.named < t'.reach := by
        simp only [reach, named, hused] at hroom ⊢
        omega
      have hnew' : ∀ i < t'.named, ¬ same (t'.pool i) = true := by
        intro i hi
        simp only [named, hused] at hi
        rw [hpool]
        exact hnew i hi
      obtain ⟨s', hrun', hfree'⟩ := h'.search_free hroom' hnew' key
      have hlt' : t'.used < t'.cap := by
        have hle := h.used_le
        omega
      rw [if_pos (by simp [hasRoom, hok])]
      refine ⟨s', ?_, hfree', hlt'⟩
      simp only [place, hrun, ok_bind, if_neg hlt, hgrow, hok, if_true, hrun', if_pos hlt']
      rfl

end Table

end Bcb.Bt
