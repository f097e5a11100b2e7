import Bcb.Bt.Train

namespace Bcb.Bt

open Lib

/-- An `int`, negative or below `n`. -/
structure Ref (n : Nat) (x : Int) : Prop where
  ge : -2 ^ 31 ≤ x
  lt : x < 2 ^ 31
  below : ∀ k, link x = some k → k < n

theorem Ref.mono {n m : Nat} {x : Int} (h : Ref n x) (hle : n ≤ m) : Ref m x :=
  ⟨h.ge, h.lt, fun k hk => (h.below k hk).trans_le hle⟩

theorem Ref.empty (n : Nat) : Ref n (-1) :=
  ⟨by decide, by decide, fun k hk => absurd hk.symm (Option.some_ne_none k)⟩

theorem toInt32_ge (x : Int) : -2 ^ 31 ≤ toInt32 x := by
  unfold toInt32
  exact Int.le_bmod (by norm_num)

theorem toInt32_le (j : Nat) : toInt32 j ≤ j := by
  unfold toInt32
  rw [Int.bmod_def]
  split_ifs <;> omega

theorem Ref.index {n j : Nat} (h : j < n) : Ref n (toInt32 j) := by
  refine ⟨toInt32_ge j, toInt32_lt j, fun k hk => ?_⟩
  have hle := toInt32_le j
  unfold link at hk
  split_ifs at hk
  obtain rfl := Option.some.inj hk
  omega

section Table

variable {α : Type} {hash : α → UInt32} {same : α → Bool} {key : UInt32} {t t' : Table α}

/-- The slots name entries. -/
def Slots (t : Table α) : Prop := ∀ h, Ref t.used (t.slot h)

/-- The entries stay, and the slots go on naming entries. -/
structure Kept (t t' : Table α) : Prop where
  used : t'.used = t.used
  pool : t'.pool = t.pool
  slots : Slots t → Slots t'

theorem Kept.refl (t : Table α) : Kept t t := ⟨rfl, rfl, fun h => h⟩

theorem Kept.trans {t'' : Table α} (h : Kept t t') (h' : Kept t' t'') : Kept t t'' :=
  ⟨h'.used.trans h.used, h'.pool.trans h.pool, fun hs => h'.slots (h.slots hs)⟩

theorem rehash_kept {i : Nat} (hi : i < t.used) (h : t.rehash hash i = .ok t') : Kept t t' := by
  obtain ⟨e, -, h⟩ := bind_eq_ok.1 h
  obtain ⟨s, -, h⟩ := bind_eq_ok.1 h
  obtain rfl := Except.ok.inj h
  refine ⟨rfl, rfl, fun hs s' => ?_⟩
  change Ref t.used (Function.update t.slot s (toInt32 i) s')
  rw [Function.update_apply]
  split_ifs
  · exact .index hi
  · exact hs s'

theorem grow_kept {dynamic grown : Bool} {gr : Growth}
    (h : t.grow dynamic gr hash = .ok (grown, t')) : Kept t t' := by
  unfold Table.grow at h
  split_ifs at h
  · cases h
    exact .refl t
  · cases h
    exact .refl t
  · cases h
    exact ⟨rfl, rfl, fun hs => hs⟩
  · obtain ⟨t1, hrun, h⟩ := bind_eq_ok.1 h
    obtain ⟨-, rfl⟩ := Prod.mk.inj (Except.ok.inj h)
    have hdoubled : Kept t t.doubled := ⟨rfl, rfl, fun _ _ => .empty _⟩
    apply foldlM_inv (P := fun _ t1 => Kept t t1) hrun hdoubled
    intro _ i hi t1 t2 h1 hstep
    exact h1.trans (rehash_kept (h1.used ▸ List.mem_range.1 hi) hstep)

theorem search_slot {i : Nat} (h : t.search same key = .ok (.found i)) :
    ∃ s, link (t.slot s) = some i := by
  obtain ⟨j, -, -, htest⟩ := Probe.run_eq_ok h
  generalize (nextSlot t.mask)^[j] (key.toNat &&& t.mask) = s at htest
  refine ⟨s, ?_⟩
  unfold Table.searchTest Table.readSlot at htest
  split_ifs at htest
  · rw [pure_bind] at htest
    cases hl : link (t.slot s) with
    | none =>
      rw [hl] at htest
      cases htest
    | some k =>
      rw [hl] at htest
      obtain ⟨e, -, htest⟩ := bind_eq_ok.1 htest
      have hif := Except.ok.inj htest
      split_ifs at hif
      cases hif
      rfl
  · cases htest

theorem place_kept {dynamic : Bool} {gr : Growth} {n : Nat} {o : Option Hit}
    (h : t.place dynamic gr hash same key n = .ok (o, t')) :
    Kept t t' ∧ ∀ i, o = some (.found i) → Slots t → i < t'.used := by
  induction n generalizing t with
  | zero => cases h
  | succ n ih =>
    obtain ⟨hit, hsearch, h⟩ := bind_eq_ok.1 h
    cases hit with
    | found i =>
      cases h
      obtain ⟨s, hs⟩ := search_slot hsearch
      refine ⟨.refl _, ?_⟩
      rintro _ ⟨⟩ hslots
      exact (hslots s).below i hs
    | free s =>
      dsimp only at h
      split_ifs at h with hroom
      · cases h
        exact ⟨.refl _, by rintro _ ⟨⟩⟩
      · obtain ⟨⟨grown, t1⟩, hgrow, h⟩ := bind_eq_ok.1 h
        have hkept := grow_kept hgrow
        cases grown with
        | false =>
          cases h
          exact ⟨hkept, by rintro _ ⟨⟩⟩
        | true =>
          obtain ⟨hkept', hfound⟩ := ih h
          exact ⟨hkept.trans hkept', fun i hi hs => hfound i hi (hkept.slots hs)⟩

theorem Slots.put {s idx : Nat} {e : α} (h : Slots t) : Slots (t.put s idx e) := by
  intro s'
  change Ref (t.used + 1) (Function.update t.slot s (toInt32 t.used) s')
  rw [Function.update_apply]
  split_ifs
  · exact .index (Nat.lt_succ_self _)
  · exact (h s').mono (Nat.le_succ _)

end Table

variable {B : Build} {g g' : Globals} {ctx : List UInt8} {b : UInt8} {al : UpdateAlloc}

/-- The chains stay within the pool. -/
structure Linked (bt : Table BtEntry) (cs : Table CtxEntry) : Prop where
  btSlots : Slots bt
  ctxSlots : Slots cs
  ctxUsed : cs.used ≤ 2 ^ 31
  next : ∀ i < bt.used, Ref bt.used (bt.pool i).ctxNext
  first : ∀ i < cs.used, Ref bt.used (cs.pool i).firstEntry

variable {bt bt' : Table BtEntry} {cs cs' : Table CtxEntry}

theorem Linked.btCount {gr : Growth} {ch : UInt32} {o : Option (Option Nat)} (h : Linked bt cs)
    (hrun : btCount B gr ctx ch b bt = .ok (o, bt')) :
    Linked bt' cs ∧ bt.used ≤ bt'.used ∧ ∀ j, o = some (some j) → j < bt'.used := by
  obtain ⟨⟨hit, t⟩, hplace, hrun⟩ := bind_eq_ok.1 hrun
  obtain ⟨hkept, -⟩ := place_kept hplace
  have ht : Linked t cs := by
    refine ⟨hkept.slots h.btSlots, h.ctxSlots, h.ctxUsed, ?_, ?_⟩
    · rw [hkept.used, hkept.pool]
      exact h.next
    · rw [hkept.used]
      exact h.first
  cases hit with
  | none =>
    cases hrun
    exact ⟨ht, hkept.used.ge, by rintro _ ⟨⟩⟩
  | some hit =>
    cases hit with
    | found i =>
      cases hrun
      refine ⟨⟨ht.btSlots, ht.ctxSlots, ht.ctxUsed, ?_, ht.first⟩, hkept.used.ge, by rintro _ ⟨⟩⟩
      intro k hk
      rw [Table.modify_pool]
      split_ifs with hki
      · exact hki ▸ ht.next k hk
      · exact ht.next k hk
    | free s =>
      cases hrun
      have hle : t.used ≤ t.used + 1 := Nat.le_succ _
      refine ⟨⟨ht.btSlots.put, ht.ctxSlots, ht.ctxUsed, ?_, fun k hk => (ht.first k hk).mono hle⟩,
        hkept.used.symm.le.trans hle, ?_⟩
      · intro k hk
        rw [Table.put_pool]
        split_ifs with hkt
        · exact .empty _
        · exact (ht.next k (Nat.lt_of_le_of_ne (Nat.le_of_lt_succ hk) hkt)).mono hle
      · rintro _ ⟨⟩
        exact Nat.lt_succ_self _

theorem Linked.ctxGetH {gr : Growth} {ch : UInt32} {o : Option Nat} (h : Linked bt cs)
    (hrun : ctxGetH B gr ctx ch cs = .ok (o, cs')) :
    Linked bt cs' ∧ ∀ cc, o = some cc → cc < cs'.used := by
  obtain ⟨⟨hit, t⟩, hplace, hrun⟩ := bind_eq_ok.1 hrun
  obtain ⟨hkept, hfound⟩ := place_kept hplace
  have ht : Linked bt t := by
    refine ⟨h.btSlots, hkept.slots h.ctxSlots, hkept.used.trans_le h.ctxUsed, h.next, ?_⟩
    rw [hkept.used, hkept.pool]
    exact h.first
  cases hit with
  | none =>
    cases hrun
    exact ⟨ht, by rintro _ ⟨⟩⟩
  | some hit =>
    cases hit with
    | found i =>
      cases hrun
      refine ⟨ht, ?_⟩
      rintro _ ⟨⟩
      exact hfound i rfl h.ctxSlots
    | free s =>
      dsimp only at hrun
      have hle := ht.ctxUsed
      have hmod : t.used % 2 ^ 32 = t.used := Nat.mod_eq_of_lt (by omega)
      rw [hmod] at hrun
      split_ifs at hrun with hlt
      cases hrun
      refine ⟨⟨ht.btSlots, ht.ctxSlots.put, hlt, ht.next, ?_⟩, ?_⟩
      · intro k hk
        rw [Table.put_pool]
        split_ifs with hkt
        · exact .empty _
        · exact ht.first k (Nat.lt_of_le_of_ne (Nat.le_of_lt_succ hk) hkt)
      · rintro _ ⟨⟩
        exact Nat.lt_succ_self _

theorem Linked.chainNew (h : Linked bt cs) {new : Option Nat} {cc : Nat} (hcc : cc < cs.used)
    (hnew : ∀ j, new = some j → j < bt.used) :
    Linked (chainNew new cc bt cs).1 (chainNew new cc bt cs).2 := by
  cases new with
  | none => exact h
  | some j =>
    refine ⟨h.btSlots, h.ctxSlots, h.ctxUsed, ?_, ?_⟩
    · intro k hk
      dsimp only [Bt.chainNew] at hk ⊢
      rw [Table.modify_pool]
      split_ifs
      · exact h.first cc hcc
      · exact h.next k hk
    · intro k hk
      dsimp only [Bt.chainNew] at hk ⊢
      rw [Table.modify_pool]
      split_ifs
      · exact .index (hnew j rfl)
      · exact h.first k hk

theorem btUpdate_linked (h : Linked g.bt g.ctx) (hrun : btUpdate B al ctx b g = .ok g') :
    Linked g'.bt g'.ctx := by
  unfold btUpdate at hrun
  split_ifs at hrun
  · cases hrun
    exact h
  · obtain ⟨⟨o, bt⟩, hcount, hrun⟩ := bind_eq_ok.1 hrun
    obtain ⟨hbt, hle, hnew⟩ := h.btCount hcount
    cases o with
    | none =>
      cases hrun
      exact hbt
    | some new =>
      obtain ⟨⟨o, cs⟩, hget, hrun⟩ := bind_eq_ok.1 hrun
      obtain ⟨hcs, hcc⟩ := hbt.ctxGetH hget
      cases o with
      | none =>
        cases hrun
        exact hcs
      | some cc =>
        cases hrun
        have hcounted :
            Linked bt (cs.modify cc fun e => { e with totalFreq := e.totalFreq + 1 }) := by
          refine ⟨hcs.btSlots, hcs.ctxSlots, hcs.ctxUsed, hcs.next, fun k hk => ?_⟩
          rw [Table.modify_pool]
          split_ifs with hk'
          · exact hk' ▸ hcs.first k hk
          · exact hcs.first k hk
        exact hcounted.chainNew (hcc cc rfl) fun j hj => hnew j (congrArg some hj)

theorem btV3Train_linked {al : Nat → UpdateAlloc} (h : Linked g.bt g.ctx)
    (hrun : btV3Train B al b g = .ok g') : Linked g'.bt g'.ctx := by
  unfold btV3Train at hrun
  split_ifs at hrun
  · cases hrun
    exact h
  · obtain ⟨g1, hups, hrun⟩ := bind_eq_ok.1 hrun
    obtain rfl := Except.ok.inj hrun
    exact foldlM_inv (P := fun _ g => Linked g.bt g.ctx) hups h
      fun _ _ _ _ _ h1 hstep => btUpdate_linked h1 hstep

theorem init_linked (B : Build) (pool : Nat → BtEntry) (ctxPool : Nat → CtxEntry) :
    Linked (btV3Init B pool ctxPool).bt (btV3Init B pool ctxPool).ctx :=
  ⟨fun _ => .empty _, fun _ => .empty _, Nat.zero_le _, fun _ hi => absurd hi (Nat.not_lt_zero _),
    fun _ hi => absurd hi (Nat.not_lt_zero _)⟩

theorem trainAll_linked {al : Nat → Nat → UpdateAlloc} {s : List UInt8} {pool : Nat → BtEntry}
    {ctxPool : Nat → CtxEntry} (hrun : btV3TrainAll B al s (btV3Init B pool ctxPool) = .ok g) :
    Linked g.bt g.ctx :=
  foldlM_inv (P := fun _ g => Linked g.bt g.ctx) hrun (init_linked B pool ctxPool)
    fun _ _ _ _ _ h1 hstep => btV3Train_linked h1 hstep

end Bcb.Bt
