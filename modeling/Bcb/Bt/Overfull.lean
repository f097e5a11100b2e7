import Bcb.Bt.Training
import Mathlib.Data.Nat.Prime.Basic
import Mathlib.Tactic.NormNum.Prime

/-! A context table that fills up to its last slot: its pool has grown without its slots. -/

namespace Bcb.Bt

open Lib

/-- The pool grows with its slots; the context pool without. -/
def halfAlloc : UpdateAlloc := ⟨⟨true, true⟩, ⟨true, false⟩⟩

/-- The contexts of a list of updates, but for one. -/
def kept (lost : List UInt8) (us : List (List UInt8 × UInt8)) : Finset (List UInt8) :=
  (us.map Prod.fst).toFinset.erase lost

/-- The tables while the context table fills up; the growth of its pool loses a context. -/
structure Filling (lost : List UInt8) (us : List (List UInt8 × UInt8)) (g : Globals) : Prop where
  represents : ∃ T, Represents .plain T g ∧ T.seen = us.map Prod.fst ∧
    (∀ c, c ∈ T.ctxs ↔ c ∈ kept lost us) ∧ T.pairs.length ≤ us.length
  bt : Balanced g.bt
  nslots : g.ctx.nslots = 2 ^ 16
  cap : g.ctx.cap = if lost ∈ us.map Prod.fst then 2 ^ 16 else 2 ^ 15

variable {lost c : List UInt8} {b : UInt8} {us : List (List UInt8 × UInt8)} {g : Globals}

@[simp] theorem mem_kept {d : List UInt8} : d ∈ kept lost us ↔ d ≠ lost ∧ d ∈ us.map Prod.fst := by
  rw [kept, Finset.mem_erase, List.mem_toFinset]

theorem kept_concat (lost c : List UInt8) (b : UInt8) (us : List (List UInt8 × UInt8)) :
    kept lost (us ++ [(c, b)]) = if c = lost then kept lost us else insert c (kept lost us) := by
  ext d
  split_ifs with hc
  · rw [mem_kept, mem_kept, List.map_append, List.map_singleton, List.mem_append,
      List.mem_singleton]
    constructor
    · rintro ⟨hd, hmem | rfl⟩
      · exact ⟨hd, hmem⟩
      · exact absurd hc hd
    · exact fun ⟨hd, hmem⟩ => ⟨hd, .inl hmem⟩
  · rw [mem_kept, Finset.mem_insert, mem_kept, List.map_append, List.map_singleton,
      List.mem_append, List.mem_singleton]
    constructor
    · rintro ⟨hd, hmem | rfl⟩
      · exact .inr ⟨hd, hmem⟩
      · exact .inl rfl
    · rintro (rfl | ⟨hd, hmem⟩)
      · exact ⟨hc, .inr rfl⟩
      · exact ⟨hd, .inl hmem⟩

theorem ctxs_length {T : Counts} (hnodup : T.ctxs.Nodup)
    (hctxs : ∀ d, d ∈ T.ctxs ↔ d ∈ kept lost us) : T.ctxs.length = (kept lost us).card := by
  rw [← List.toFinset_card_of_nodup hnodup]
  congr 1
  ext d
  rw [List.mem_toFinset]
  exact hctxs d

@[simp] theorem mem_fst_concat {d : List UInt8} :
    d ∈ (us ++ [(c, b)]).map Prod.fst ↔ d ∈ us.map Prod.fst ∨ d = c := by
  rw [List.map_append, List.mem_append, List.map_singleton, List.mem_singleton]

/-! The context table under `halfAlloc`. -/

section Sizes

variable {t : Table CtxEntry}

theorem halfAlloc_below (h : t.used < t.cap) :
    t.hasRoom Build.plain.dynamic halfAlloc.ctx = true ∧
      t.placedSizes Build.plain.dynamic halfAlloc.ctx = (t.cap, t.nslots) :=
  ⟨by simp [Table.hasRoom, h], if_pos h⟩

theorem halfAlloc_grown (h : ¬ t.used < t.cap) :
    t.hasRoom Build.plain.dynamic halfAlloc.ctx = false ∧
      t.placedSizes Build.plain.dynamic halfAlloc.ctx = (t.cap * 2, t.nslots) := by
  constructor
  · simp [Table.hasRoom, Table.grows, halfAlloc, h]
  · rw [Table.placedSizes, if_neg h]
    rfl

end Sizes

theorem Filling.updated (h : Filling lost us g) (hpos : 0 < c.length)
    (hlen : c.length ≤ btMaxDepth) (hus : us.length < 2 ^ 31)
    (hroom : c ∈ kept lost us ∨ (kept lost us).card < 2 ^ 16) :
    ∃ T g', Represents .plain T g ∧ (∀ d, d ∈ T.ctxs ↔ d ∈ kept lost us) ∧
      btUpdate .plain halfAlloc c b g = .ok g' ∧ Updated .plain halfAlloc T (c, b) g g' ∧
      (T.updateIn .plain halfAlloc g (c, b)).seen = (us ++ [(c, b)]).map Prod.fst ∧
      (T.updateIn .plain halfAlloc g (c, b)).pairs.length ≤ (us ++ [(c, b)]).length := by
  obtain ⟨T, hT, hseen, hctxs, hpairs⟩ := h.represents
  have hbt : g.bt.used < g.bt.reach := by
    apply h.bt.used_lt_reach hT.bt.indexed.used_le
    rw [hT.bt.used]
    omega
  have hctx : c ∈ T.ctxs ∨ g.ctx.used < g.ctx.reach := by
    rw [hctxs, Table.reach, h.nslots, hT.ctx.used, ctxs_length hT.sound.ctxs_nodup hctxs]
    exact hroom.imp_right fun hlt => Nat.lt_min.2 ⟨hlt, hlt.trans (by norm_num)⟩
  have hcap : 0 < g.ctx.cap := by
    rw [h.cap]
    split_ifs <;> decide
  obtain ⟨g', hrun, hupd⟩ := btUpdate_spec (b := b) hT hpos hlen h.bt.cap_pos hcap (.inr hbt)
    (.inr hctx) ((Tally.update_pairs_length_le _ _ _ _).trans
      (Nat.succ_le_of_lt (hpairs.trans_lt hus)))
  refine ⟨T, g', hT, hctxs, hrun, hupd, ?_, ?_⟩
  · rw [Counts.updateIn, (Tally.update_pairs _ _ _ _).2, hseen, List.map_append]
    rfl
  · rw [List.length_append]
    exact (Tally.update_pairs_length_le _ _ _ _).trans (Nat.succ_le_succ hpairs)

theorem Filling.contexts {T : Counts} {g' : Globals} (h : Filling lost us g)
    (hT : Represents .plain T g) (hctxs : ∀ d, d ∈ T.ctxs ↔ d ∈ kept lost us)
    (hupd : Updated .plain halfAlloc T (c, b) g g')
    (hfirst : lost ∉ (us ++ [(c, b)]).map Prod.fst → (kept lost (us ++ [(c, b)])).card ≤ 2 ^ 15)
    (hbound : (kept lost (us ++ [(c, b)])).card ≤ 2 ^ 16)
    (hlost : c = lost → lost ∉ us.map Prod.fst ∧ (kept lost us).card = 2 ^ 15) :
    (∀ d, d ∈ (T.updateIn .plain halfAlloc g (c, b)).ctxs ↔ d ∈ kept lost (us ++ [(c, b)])) ∧
      g'.ctx.nslots = 2 ^ 16 ∧
      g'.ctx.cap = if lost ∈ (us ++ [(c, b)]).map Prod.fst then 2 ^ 16 else 2 ^ 15 := by
  have hused : g.ctx.used = (kept lost us).card := by
    rw [hT.ctx.used, ctxs_length hT.sound.ctxs_nodup hctxs]
  have hcap := h.cap
  have hroomBt : g.bt.hasRoom Build.plain.dynamic halfAlloc.bt = true := by
    simp [Table.hasRoom, Table.grows, Build.dynamic, Build.plain, halfAlloc]
  have hsome : ((T.see c).recordPair true (c, b)).1 ≠ none := by
    rw [Tally.recordPair, if_pos rfl]
    split_ifs <;> exact Option.some_ne_none _
  have hsizes := hupd.ctxSizes
  rw [hroomBt] at hsizes
  simp only [hsome, false_or] at hsizes
  rw [Counts.updateIn, hroomBt, Tally.update_true_ctxs]
  simp only [mem_fst_concat] at hfirst ⊢
  rw [kept_concat] at hfirst hbound ⊢
  by_cases hmem : c ∈ T.ctxs
  · -- a context with a place
    have hkept := (hctxs c).1 hmem
    have hne : c ≠ lost := (mem_kept.1 hkept).1
    rw [if_pos hmem, Prod.mk.injEq] at hsizes
    rw [if_neg fun hn => hn.1 hmem, if_neg hne, Finset.insert_eq_of_mem hkept]
    simp only [Ne.symm hne, or_false]
    exact ⟨hctxs, hsizes.2.trans h.nslots, hsizes.1.trans hcap⟩
  rw [if_neg hmem] at hsizes
  have hnew : c ∉ kept lost us := fun hk => hmem ((hctxs c).2 hk)
  by_cases hc : c = lost
  · -- the growth that gets no slots
    obtain ⟨hfresh, hcard⟩ := hlost hc
    rw [if_neg hfresh] at hcap
    obtain ⟨hroom, hplaced⟩ := halfAlloc_grown (t := g.ctx) (by omega)
    rw [hplaced, Prod.mk.injEq] at hsizes
    rw [hroom, if_neg fun hn => Bool.false_ne_true hn.2, if_pos hc]
    simp only [hc, or_true, if_true]
    exact ⟨hctxs, hsizes.2.trans h.nslots, by omega⟩
  · -- a new place
    rw [if_neg hc, Finset.card_insert_of_notMem hnew] at hbound hfirst
    have hlt : g.ctx.used < g.ctx.cap := by
      rw [hcap]
      split_ifs with hl
      · omega
      · have hle := hfirst fun hn => hn.elim hl (Ne.symm hc)
        omega
    obtain ⟨hroom, hplaced⟩ := halfAlloc_below hlt
    rw [hplaced, Prod.mk.injEq] at hsizes
    rw [hroom, if_pos ⟨hmem, rfl⟩, if_neg hc]
    simp only [Ne.symm hc, or_false]
    refine ⟨?_, hsizes.2.trans h.nslots, hsizes.1.trans hcap⟩
    intro d
    rw [List.mem_append, List.mem_singleton, Finset.mem_insert, hctxs, or_comm]

theorem Filling.update (h : Filling lost us g) (hpos : 0 < c.length) (hlen : c.length ≤ btMaxDepth)
    (hus : us.length < 2 ^ 31) (hbound : (kept lost (us ++ [(c, b)])).card ≤ 2 ^ 16)
    (hfirst : lost ∉ (us ++ [(c, b)]).map Prod.fst → (kept lost (us ++ [(c, b)])).card ≤ 2 ^ 15)
    (hlost : c = lost → lost ∉ us.map Prod.fst ∧ (kept lost us).card = 2 ^ 15) :
    ∃ g', btUpdate .plain halfAlloc c b g = .ok g' ∧ Filling lost (us ++ [(c, b)]) g' ∧
      g'.window = g.window ∧ g'.frozen = g.frozen := by
  have hroom : c ∈ kept lost us ∨ (kept lost us).card < 2 ^ 16 := by
    by_cases hmem : c ∈ kept lost us
    · exact .inl hmem
    · right
      rw [kept_concat] at hbound
      split_ifs at hbound with hc
      · have hle := (hlost hc).2
        omega
      · rw [Finset.card_insert_of_notMem hmem] at hbound
        omega
  obtain ⟨T, g', hT, hctxs, hrun, hupd, hseen, hpairs⟩ := h.updated (b := b) hpos hlen hus hroom
  obtain ⟨hctxs', hnslots, hcap⟩ := h.contexts hT hctxs hupd hfirst hbound hlost
  have hbalanced : Balanced g'.bt := h.bt.placed (fun _ => rfl) hupd.btSizes_or
  exact ⟨g', hrun, ⟨⟨_, hupd.represents, hseen, hctxs', hpairs⟩, hbalanced, hnslots, hcap⟩,
    hupd.window, hupd.frozen⟩

theorem init_filling (lost : List UInt8) (pool : Nat → BtEntry) (ctxPool : Nat → CtxEntry) :
    Filling lost [] (btV3Init .plain pool ctxPool) := by
  refine ⟨⟨Tally.empty, init_represents .plain pool ctxPool, rfl, ?_, le_rfl⟩,
    ⟨(by decide : 0 < 2 ^ 16), rfl⟩, rfl, rfl⟩
  intro c
  rw [mem_kept]
  exact ⟨fun h => (nomatch h), fun h => (nomatch h.2)⟩

theorem split_unique {α : Type} {x : α} {l₁ l₂ m₁ m₂ : List α} (h : l₁ ++ x :: l₂ = m₁ ++ x :: m₂)
    (h₁ : x ∉ m₁) (h₂ : x ∉ m₂) : l₁ = m₁ := by
  rcases List.append_eq_append_iff.1 h with ⟨r, hm, hr⟩ | ⟨r, hl, hr⟩
  · cases r with
    | nil => rw [hm, List.append_nil]
    | cons y r =>
      obtain ⟨rfl, -⟩ := List.cons.inj hr
      exact absurd (hm ▸ List.mem_append_right l₁ List.mem_cons_self) h₁
  · cases r with
    | nil => rw [hl, List.append_nil]
    | cons y r =>
      obtain ⟨rfl, htail⟩ := List.cons.inj hr
      refine absurd ?_ h₂
      rw [htail]
      exact List.mem_append_right r List.mem_cons_self

/-- The run that loses the context that comes after `2^15` others, and has `2^16` more or less. -/
theorem trainAll_filling {s : List UInt8} {pre₀ post₀ : List (List UInt8)}
    (hl : (Ngram.log btMaxDepth s).map Prod.fst = pre₀ ++ lost :: post₀) (hpre : lost ∉ pre₀)
    (hpost : lost ∉ post₀) (hcard : pre₀.toFinset.card = 2 ^ 15)
    (htotal : ((Ngram.log btMaxDepth s).map Prod.fst).toFinset.card = 2 ^ 16 + 1)
    (hlen : (Ngram.log btMaxDepth s).length ≤ 2 ^ 31) (pool : Nat → BtEntry)
    (ctxPool : Nat → CtxEntry) :
    ∃ g, btV3TrainAll .plain (fun _ _ => halfAlloc) s (btV3Init .plain pool ctxPool) = .ok g ∧
      Filling lost (Ngram.log btMaxDepth s) g := by
  have hmem : lost ∈ (Ngram.log btMaxDepth s).map Prod.fst :=
    hl ▸ List.mem_append_right pre₀ List.mem_cons_self
  have hkept : (kept lost (Ngram.log btMaxDepth s)).card = 2 ^ 16 := by
    rw [kept, Finset.card_erase_of_mem (List.mem_toFinset.2 hmem), htotal, Nat.add_sub_cancel]
  apply trainAll_ok (init_filling lost pool ctxPool)
  · intro us g w h
    obtain ⟨T, hT, hseen, hctxs, hpairs⟩ := h.represents
    exact ⟨⟨T, ⟨hT.sound, hT.short, hT.bt, hT.ctx, hT.bloom⟩, hseen, hctxs, hpairs⟩, h.bt, h.nslots,
      h.cap⟩
  · rintro pre ⟨c, b⟩ post hsplit hpos hdepth i n g h
    have hpref : pre ++ [(c, b)] <+: Ngram.log btMaxDepth s :=
      ⟨post, by rw [hsplit, List.append_assoc]; rfl⟩
    have hmap : pre.map Prod.fst ++ c :: post.map Prod.fst = pre₀ ++ lost :: post₀ := by
      rw [← hl, hsplit, List.map_append, List.map_cons]
    refine h.update hpos hdepth ?_ ?_ ?_ ?_
    · have hle := hpref.length_le
      rw [List.length_append, List.length_singleton] at hle
      omega
    · rw [← hkept]
      apply Finset.card_le_card
      apply Finset.erase_subset_erase
      intro d hd
      rw [List.mem_toFinset] at hd ⊢
      exact (hpref.map Prod.fst).subset hd
    · -- before the lost context there are no more than the pool holds
      intro hno
      rw [← hcard]
      refine (Finset.card_le_card (Finset.erase_subset _ _)).trans (Finset.card_le_card ?_)
      have hp : (pre ++ [(c, b)]).map Prod.fst <+: pre₀ ++ lost :: post₀ := hl ▸ hpref.map Prod.fst
      have hq : pre₀ ++ [lost] <+: pre₀ ++ lost :: post₀ :=
        ⟨post₀, by rw [List.append_assoc]; rfl⟩
      have hsub : (pre ++ [(c, b)]).map Prod.fst <+: pre₀ := by
        rcases List.prefix_or_prefix_of_prefix hp hq with hle | hle
        · rcases List.prefix_concat_iff.1 hle with heq | hle
          · refine absurd ?_ hno
            rw [heq]
            exact List.mem_append_right pre₀ List.mem_cons_self
          · exact hle
        · exact absurd (hle.subset (List.mem_append_right pre₀ List.mem_cons_self)) hno
      intro d hd
      rw [List.mem_toFinset] at hd ⊢
      exact hsub.subset hd
    · rintro rfl
      have heq := split_unique hmap hpre hpost
      refine ⟨heq ▸ hpre, ?_⟩
      rw [kept, heq, Finset.erase_eq_of_notMem (by rwa [List.mem_toFinset]), hcard]

theorem exists_split {α : Type} [DecidableEq α] {N : Nat} (l : List α) (h : N < l.toFinset.card) :
    ∃ pre x post, l = pre ++ x :: post ∧ x ∉ pre ∧ pre.toFinset.card = N := by
  induction l using List.reverseRecOn with
  | nil => cases h
  | append_singleton l x ih =>
    by_cases hlt : N < l.toFinset.card
    · obtain ⟨pre, y, post, rfl, hy, hcard⟩ := ih hlt
      exact ⟨pre, y, post ++ [x], by rw [List.append_assoc]; rfl, hy, hcard⟩
    · have hunion : (l ++ [x]).toFinset = insert x l.toFinset := by
        ext d
        rw [List.mem_toFinset, List.mem_append, List.mem_singleton, Finset.mem_insert,
          List.mem_toFinset, or_comm]
      rw [hunion] at h
      have hx : x ∉ l := by
        intro hmem
        rw [Finset.insert_eq_of_mem (List.mem_toFinset.2 hmem)] at h
        exact hlt h
      rw [Finset.card_insert_of_notMem (by rwa [List.mem_toFinset])] at h
      exact ⟨l, x, [], rfl, hx, by omega⟩

/-! ## A sequence with `2^16 + 1` contexts -/

/-- In the `k`-th block of 79 the letters go up by `k + 1`, modulo the prime 79. -/
def letter (i : Nat) : Nat := (i / 79 + 1) * (i % 79) % 79

def blocks : List UInt8 := (List.range 2859).map fun i => UInt8.ofNat (letter i)

theorem letter_lt (i : Nat) : letter i < 79 := Nat.mod_lt _ (by decide)

theorem letter_succ (i : Nat) : letter (i + 1) ≡ letter i + (i / 79 + 1) [MOD 79] := by
  have hi : (i / 79 + 1) * (i % 79) + (i / 79 + 1) ≡ letter i + (i / 79 + 1) [MOD 79] :=
    Nat.ModEq.add_right _ (Nat.mod_modEq _ _).symm
  refine Nat.ModEq.trans (Nat.ModEq.trans (Nat.mod_modEq _ _) ?_) hi
  by_cases hlast : i % 79 = 78
  · have hdiv : (i + 1) % 79 = 0 := by omega
    rw [hdiv, hlast, Nat.mul_zero]
    have hmul : (i / 79 + 1) * 78 + (i / 79 + 1) = (i / 79 + 1) * 79 := by ring
    rw [hmul]
    exact (Nat.modEq_zero_iff_dvd.2 (Dvd.intro_left _ rfl)).symm
  · have hdiv : (i + 1) / 79 = i / 79 := by omega
    have hmod : (i + 1) % 79 = i % 79 + 1 := by omega
    rw [hdiv, hmod, Nat.mul_add, Nat.mul_one]

/-- Two letters in a row tell the block and the place in it. -/
theorem letter_pair_inj {i j : Nat} (hi : i < 2859) (hj : j < 2859) (h : letter i = letter j)
    (h' : letter (i + 1) = letter (j + 1)) : i = j := by
  have hstep : letter i + (i / 79 + 1) ≡ letter i + (j / 79 + 1) [MOD 79] := by
    have hj' := letter_succ j
    rw [← h, ← h'] at hj'
    exact (letter_succ i).symm.trans hj'
  have hblock := Nat.ModEq.eq_of_lt_of_lt (Nat.ModEq.add_left_cancel' _ hstep) (by omega) (by omega)
  have hplace : (i / 79 + 1) * (i % 79) ≡ (i / 79 + 1) * (j % 79) [MOD 79] := by
    have hmod : (i / 79 + 1) * (i % 79) % 79 = (j / 79 + 1) * (j % 79) % 79 := h
    rwa [← hblock] at hmod
  have hcop : Nat.Coprime 79 (i / 79 + 1) :=
    Nat.coprime_of_lt_prime (Nat.succ_ne_zero _) (by omega) (by norm_num)
  have hcancel := Nat.ModEq.cancel_left_of_coprime hcop hplace
  have hmods := Nat.ModEq.eq_of_lt_of_lt hcancel (Nat.mod_lt _ (by decide)) (Nat.mod_lt _ (by decide))
  omega

@[simp] theorem blocks_length : blocks.length = 2859 := by
  rw [blocks, List.length_map, List.length_range]

theorem blocks_getElem? {i : Nat} (hi : i < 2859) :
    blocks[i]? = some (UInt8.ofNat (letter i)) := by
  rw [blocks, List.getElem?_map, List.getElem?_range hi]
  rfl

theorem ofNat_letter_inj {i j : Nat} (h : UInt8.ofNat (letter i) = UInt8.ofNat (letter j)) :
    letter i = letter j := by
  have hi := letter_lt i
  have hj := letter_lt j
  have hnat := congrArg UInt8.toNat h
  rwa [UInt8.toNat_ofNat_of_lt' (by rw [UInt8.size]; omega),
    UInt8.toNat_ofNat_of_lt' (by rw [UInt8.size]; omega)] at hnat

theorem blocks_pairs (i j : Nat) (hi : i + 1 < blocks.length) (hj : j + 1 < blocks.length)
    (h : blocks[i]? = blocks[j]?) (h' : blocks[i + 1]? = blocks[j + 1]?) : i = j := by
  rw [blocks_length] at hi hj
  rw [blocks_getElem? (by omega), blocks_getElem? (by omega)] at h h'
  exact letter_pair_inj (by omega) (by omega) (ofNat_letter_inj (Option.some.inj h))
    (ofNat_letter_inj (Option.some.inj h'))

/-- The contexts of the sequence, in the order they are met. -/
def blockContexts : List (List UInt8) := (Ngram.log btMaxDepth blocks).map Prod.fst

theorem mem_blockContexts {c : List UInt8} (h : c ∈ blockContexts) :
    c ≠ [] ∧ c.length ≤ btMaxDepth := by
  obtain ⟨u, hu, rfl⟩ := List.mem_map.1 h
  exact Ngram.mem_log hu

theorem letter_mem_early {x : Nat} (hx : x < 79) :
    [UInt8.ofNat x] ∈ (Ngram.log btMaxDepth (blocks.take 80)).map Prod.fst := by
  refine (Ngram.mem_log_fst (List.cons_ne_nil _ _) (Nat.le_add_left 1 23) _).2 ⟨x + 1, ?_, ?_⟩
  · rw [List.length_take, blocks_length]
    omega
  · have hletter : letter x = x := by
      rw [letter, Nat.div_eq_of_lt hx, Nat.mod_eq_of_lt hx, Nat.zero_add, Nat.one_mul,
        Nat.mod_eq_of_lt hx]
    rw [List.take_take, Nat.min_eq_left (by omega), List.take_add_one,
      blocks_getElem? (by omega), hletter]
    exact List.suffix_append _ _

theorem early_begins :
    (Ngram.log btMaxDepth (blocks.take 80)).map Prod.fst <+: blockContexts := by
  have hpref := Ngram.log_prefix btMaxDepth (blocks.take 80) (blocks.drop 80)
  rw [List.take_append_drop] at hpref
  exact hpref.map Prod.fst

theorem mem_short {c : List UInt8} :
    c ∈ blockContexts ∧ c.length = 1 ↔ ∃ x < 79, c = [UInt8.ofNat x] := by
  constructor
  · rintro ⟨hc, hlen⟩
    obtain ⟨h0, hD⟩ := mem_blockContexts hc
    obtain ⟨i, hi, hsuffix⟩ := (Ngram.mem_log_fst h0 hD blocks).1 hc
    obtain ⟨x, rfl⟩ := List.length_eq_one_iff.1 hlen
    have hx : x ∈ blocks := (List.take_subset i blocks) (hsuffix.subset List.mem_cons_self)
    obtain ⟨j, -, rfl⟩ := List.mem_map.1 hx
    exact ⟨letter j, letter_lt j, rfl⟩
  · rintro ⟨x, hx, rfl⟩
    exact ⟨early_begins.subset (letter_mem_early hx), rfl⟩

theorem count_long {c : List UInt8} (h0 : c ∈ blockContexts) (hc : c.length ≠ 1) :
    blockContexts.count c ≤ 1 := by
  obtain ⟨hne, hD⟩ := mem_blockContexts h0
  have hlen := List.length_pos_iff.2 hne
  have hle := Ngram.occurrences_le_one blocks_pairs (c := c) (by omega)
  rw [← Ngram.count_log_fst hne hD] at hle
  exact hle

theorem long_nodup : (blockContexts.filter fun c => ¬ c.length = 1).Nodup := by
  rw [List.nodup_iff_count_le_one]
  intro c
  by_cases hc : c ∈ blockContexts ∧ ¬ c.length = 1
  · exact (List.filter_sublist.count_le c).trans (count_long hc.1 hc.2)
  · have hnot : c ∉ blockContexts.filter fun c => ¬ c.length = 1 := by
      rw [List.mem_filter, decide_eq_true_eq]
      exact hc
    rw [List.count_eq_zero.2 hnot]
    exact Nat.zero_le _

theorem card_add_short (l : List (List UInt8)) (hnodup : (l.filter fun c => ¬ c.length = 1).Nodup) :
    l.toFinset.card + l.countP (fun c => c.length = 1) =
      (l.toFinset.filter fun c => c.length = 1).card + l.length := by
  have hlong : (l.toFinset.filter fun c => ¬ c.length = 1).card =
      l.countP fun c => ¬ c.length = 1 := by
    rw [List.countP_eq_length_filter, ← List.toFinset_card_of_nodup hnodup, List.toFinset_filter]
    simp only [decide_eq_true_eq]
  have hcard := Finset.card_filter_add_card_filter_not (s := l.toFinset) fun c => c.length = 1
  have hlength := List.length_eq_countP_add_countP (fun c : List UInt8 => decide (c.length = 1))
    (l := l)
  simp only [decide_eq_true_eq] at hlength
  omega

theorem blockContexts_card : blockContexts.toFinset.card = 2 ^ 16 + 1 := by
  have hparts := card_add_short blockContexts long_nodup
  have hshort : blockContexts.toFinset.filter (fun c => c.length = 1) =
      (Finset.range 79).image fun x => [UInt8.ofNat x] := by
    ext c
    rw [Finset.mem_filter, List.mem_toFinset, mem_short, Finset.mem_image]
    simp only [Finset.mem_range]
    exact ⟨fun ⟨x, hx, hc⟩ => ⟨x, hx, hc.symm⟩, fun ⟨x, hx, hc⟩ => ⟨x, hx, hc.symm⟩⟩
  have hshortCard : ((Finset.range 79).image fun x => [UInt8.ofNat x]).card = 79 := by
    rw [Finset.card_image_of_injOn, Finset.card_range]
    intro x hx y hy hxy
    have hx' := Finset.mem_range.1 (Finset.mem_coe.1 hx)
    have hy' := Finset.mem_range.1 (Finset.mem_coe.1 hy)
    have hnat := congrArg UInt8.toNat (List.cons.inj hxy).1
    rwa [UInt8.toNat_ofNat_of_lt' (by rw [UInt8.size]; omega),
      UInt8.toNat_ofNat_of_lt' (by rw [UInt8.size]; omega)] at hnat
  have hcount : (blockContexts.countP fun c => c.length = 1) = 2858 := by
    have hlog := Ngram.countP_short (D := btMaxDepth) (by decide) blocks
    rw [blocks_length] at hlog
    rw [blockContexts, List.countP_map]
    exact hlog
  have hlength : blockContexts.length = 68316 := by
    have hlog := (Ngram.log_length btMaxDepth blocks).2 (by rw [blocks_length]; decide)
    rw [blockContexts, List.length_map]
    rw [blocks_length] at hlog
    generalize (Ngram.log btMaxDepth blocks).length = n at hlog ⊢
    rw [btMaxDepth] at hlog
    omega
  rw [hshort, hshortCard, hcount, hlength] at hparts
  exact Nat.add_right_cancel (hparts.trans (by norm_num))

theorem exists_lost : ∃ pre lost post, blockContexts = pre ++ lost :: post ∧ lost ∉ pre ∧
    lost ∉ post ∧ pre.toFinset.card = 2 ^ 15 := by
  obtain ⟨pre, lost, post, hl, hnew, hcard⟩ := exists_split (N := 2 ^ 15) blockContexts (by
    rw [blockContexts_card]
    norm_num)
  refine ⟨pre, lost, post, hl, hnew, ?_, hcard⟩
  have hmem : lost ∈ blockContexts := hl ▸ List.mem_append_right pre List.mem_cons_self
  -- the letters come earlier
  have hlong : ¬ lost.length = 1 := by
    intro hlen
    obtain ⟨x, hx, rfl⟩ := mem_short.1 ⟨hmem, hlen⟩
    have hearly : (Ngram.log btMaxDepth (blocks.take 80)).length ≤ 1920 := by
      have hle := Ngram.log_length_le btMaxDepth (blocks.take 80)
      rw [List.length_take, blocks_length] at hle
      exact hle
    have hpre : 2 ^ 15 ≤ pre.length := hcard ▸ List.toFinset_card_le pre
    have hsub : (Ngram.log btMaxDepth (blocks.take 80)).map Prod.fst <+: pre := by
      apply List.prefix_of_prefix_length_le early_begins ⟨_, hl.symm⟩
      rw [List.length_map]
      omega
    exact hnew (hsub.subset (letter_mem_early hx))
  have hcount := count_long hmem hlong
  rw [hl, List.count_append, List.count_cons_self] at hcount
  intro hpost
  have hpos := List.count_pos_iff.2 hpost
  omega

theorem trainAll_blocks (pool : Nat → BtEntry) (ctxPool : Nat → CtxEntry) : ∃ g T lost,
    btV3TrainAll .plain (fun _ _ => halfAlloc) blocks (btV3Init .plain pool ctxPool) = .ok g ∧
      Represents .plain T g ∧ T.pairs.length ≤ 2 ^ 31 ∧ g.ctx.used = 2 ^ 16 ∧
      g.ctx.nslots = 2 ^ 16 ∧ lost ∈ T.seen ∧ lost ∉ T.ctxs := by
  obtain ⟨pre, lost, post, hl, hpre, hpost, hcard⟩ := exists_lost
  have hlen : (Ngram.log btMaxDepth blocks).length ≤ 2 ^ 31 := by
    have hle := Ngram.log_length_le btMaxDepth blocks
    rw [blocks_length] at hle
    exact hle.trans (by norm_num)
  obtain ⟨g, hrun, hg⟩ := trainAll_filling hl hpre hpost hcard blockContexts_card hlen pool ctxPool
  obtain ⟨T, hT, hseen, hctxs, hpairs⟩ := hg.represents
  have hmem : lost ∈ blockContexts := hl ▸ List.mem_append_right pre List.mem_cons_self
  refine ⟨g, T, lost, hrun, hT, hpairs.trans hlen, ?_, hg.nslots, hseen ▸ hmem, ?_⟩
  · rw [hT.ctx.used, ctxs_length hT.sound.ctxs_nodup hctxs]
    change (blockContexts.toFinset.erase lost).card = _
    rw [Finset.card_erase_of_mem (List.mem_toFinset.2 hmem), blockContexts_card,
      Nat.add_sub_cancel]
  · rw [hctxs, mem_kept]
    exact fun h => h.1 rfl

/-- Growths that get a pool without its slots leave no slot free, and a search without end. -/
theorem halfAlloc_full : ∃ g,
    btV3TrainAll .plain (fun _ _ => halfAlloc) blocks
      (btV3Init .plain (fun _ => blankBt) fun _ => blankCtx) = .ok g ∧
    ¬ (g.bt.used < g.bt.nslots ∧ g.ctx.used < g.ctx.nslots) ∧
    ∃ ctx, g.ctx.search (ctxSame ctx) (fnv ctx) = .error .diverge := by
  obtain ⟨g, T, lost, hrun, hT, hpairs, hused, hnslots, hseen, hlost⟩ :=
    trainAll_blocks (fun _ => blankBt) fun _ => blankCtx
  have hle : g.ctx.used ≤ 2 ^ 31 := hused.trans_le (by norm_num)
  refine ⟨g, hrun, fun hlt => ?_, lost, ?_⟩
  · rw [hused, hnslots] at hlt
    exact Nat.lt_irrefl _ hlt.2
  · have hfull : g.ctx.reach ≤ g.ctx.named := by
      rw [g.ctx.named_eq hle, hused, Table.reach, hnslots]
      exact Nat.min_le_left _ _
    apply hT.ctx.indexed.search_full hfull
    exact fun i hi hs => hlost ((hT.ctx.exists_same hle).1 ⟨i, hi, hs⟩)

end Bcb.Bt
