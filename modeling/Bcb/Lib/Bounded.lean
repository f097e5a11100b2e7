import Bcb.Lib.Tally
import Mathlib

/-! A tally in tables that never get more room: what is recorded at all is counted exactly. -/

namespace Bcb.Lib.Tally

variable {κ β : Type} [DecidableEq κ] [DecidableEq β] {T : Tally κ β} {k : κ × β} {c : κ}
  {np nc : Nat} {us : List (κ × β)}

/-- An update where there is room for `np` pairs and `nc` contexts. -/
def updateWithin (np nc : Nat) (k : κ × β) (T : Tally κ β) : Tally κ β :=
  T.update (T.pairs.length < np) (T.ctxs.length < nc) k

/-- How often the pair at a place was counted. -/
def freqAt (T : Tally κ β) (j : Nat) : Nat := (T.pairs[j]?).elim 0 T.freq

/-- What the updates `us` have left in such tables. -/
structure Within (np nc : Nat) (us : List (κ × β)) (T : Tally κ β) : Prop where
  met : ∀ k ∈ T.pairs, k ∈ us
  counted : ∀ k ∈ T.pairs, T.freq k = us.count k
  lost : ∀ k ∈ us, k ∉ T.pairs → np ≤ T.pairs.length
  unplaced : ∀ k ∈ T.pairs, k.1 ∉ T.ctxs → nc ≤ T.ctxs.length
  chained : ∀ j k, T.pairs[j]? = some k → k.1 ∈ T.ctxs → j ∈ T.chain k.1
  total : ∀ c, T.total c = ((T.chain c).map T.freqAt).sum

theorem sum_map_succ {l : List Nat} {f f' : Nat → Nat} {i : Nat} (hl : l.Nodup) (hi : i ∈ l)
    (hself : f' i = f i + 1) (hother : ∀ j ∈ l, j ≠ i → f' j = f j) :
    (l.map f').sum = (l.map f).sum + 1 := by
  induction l with
  | nil => cases hi
  | cons j l ih =>
    obtain ⟨hj, hl⟩ := List.nodup_cons.1 hl
    rw [List.map_cons, List.map_cons, List.sum_cons, List.sum_cons]
    rcases List.mem_cons.1 hi with rfl | hi
    · have hrest : l.map f' = l.map f := List.map_congr_left fun x hx =>
        hother x (List.mem_cons_of_mem _ hx) (fun heq => hj (heq ▸ hx))
      rw [hrest, hself]
      omega
    · have hne : j ≠ i := fun heq => hj (heq ▸ hi)
      rw [ih hl hi fun x hx => hother x (List.mem_cons_of_mem j hx),
        hother j List.mem_cons_self hne]
      omega

theorem count_snoc (us : List (κ × β)) (k x : κ × β) :
    (us ++ [k]).count x = us.count x + if x = k then 1 else 0 := by
  rw [Exact.count_concat]
  simp only [eq_comm]

namespace Within

theorem empty (np nc : Nat) : (empty : Tally κ β).Within np nc [] where
  met _ hk := absurd hk List.not_mem_nil
  counted _ hk := absurd hk List.not_mem_nil
  lost _ hk := absurd hk List.not_mem_nil
  unplaced _ hk := absurd hk List.not_mem_nil
  chained _ _ hj := by cases hj
  total _ := rfl

theorem see (h : T.Within np nc us) (c : κ) : (T.see c).Within np nc us :=
  ⟨h.met, h.counted, h.lost, h.unplaced, h.chained, h.total⟩

theorem drop (h : T.Within np nc us) (hmem : k ∉ T.pairs) (hfull : np ≤ T.pairs.length) :
    T.Within np nc (us ++ [k]) where
  met x hx := List.mem_append_left _ (h.met x hx)
  counted x hx := by
    have hne : x ≠ k := fun heq => hmem (heq ▸ hx)
    rw [count_snoc, if_neg hne]
    exact h.counted x hx
  lost x _ _ := hfull
  unplaced := h.unplaced
  chained := h.chained
  total := h.total

@[simp] theorem again_freqAt (T : Tally κ β) (k : κ × β) (j : Nat) :
    (T.again k).freqAt j = T.freqAt j + if T.pairs[j]? = some k then 1 else 0 := by
  change (T.pairs[j]?).elim 0 (Function.update T.freq k (T.freq k + 1)) = _
  rw [freqAt]
  cases T.pairs[j]? with
  | none => rfl
  | some x =>
    simp only [Option.elim_some, Function.update_apply, Option.some.injEq]
    split_ifs with hx
    · rw [hx]
    · rfl

theorem counted_again (h : T.Within np nc us) {x : κ × β} (hx : x ∈ T.pairs) :
    (T.again k).freq x = (us ++ [k]).count x := by
  change Function.update T.freq k (T.freq k + 1) x = _
  rw [count_snoc, Function.update_apply, ← h.counted x hx]
  split_ifs with hxk
  · rw [hxk]
  · rfl

theorem lost_again (h : T.Within np nc us) (hmem : k ∈ T.pairs) {x : κ × β} (hx : x ∈ us ++ [k])
    (hnew : x ∉ T.pairs) : np ≤ T.pairs.length := by
  rcases List.mem_append.1 hx with hx | hx
  · exact h.lost x hx hnew
  · exact absurd (List.mem_singleton.1 hx ▸ hmem) hnew

theorem again_bump (h : T.Within np nc us) (hsound : T.Sound fun _ => 0) (hmem : k ∈ T.pairs)
    (hctx : k.1 ∈ T.ctxs) : ((T.again k).bump none k.1).Within np nc (us ++ [k]) where
  met x hx := List.mem_append_left _ (h.met x hx)
  counted _ := h.counted_again
  lost _ := h.lost_again hmem
  unplaced := h.unplaced
  chained := h.chained
  total c := by
    change Function.update T.total k.1 (T.total k.1 + 1) c = ((T.chain c).map (T.again k).freqAt).sum
    rw [Function.update_apply]
    split_ifs with hc
    · obtain ⟨i, hi⟩ := List.mem_iff_getElem?.1 hmem
      obtain ⟨hlt, -⟩ := List.getElem?_eq_some_iff.1 hi
      rw [hc, h.total]
      refine (sum_map_succ (i := i) (hsound.chain_nodup _) (h.chained i k hi hctx) ?_ ?_).symm
      · rw [again_freqAt, if_pos hi]
      · intro j _ hj
        have hne : T.pairs[j]? ≠ some k := fun heq =>
          hj ((List.getElem?_inj hlt hsound.pairs_nodup).1 (hi.trans heq.symm)).symm
        rw [again_freqAt, if_neg hne, Nat.add_zero]
    · -- the chains of the other contexts do not have the pair
      rw [h.total]
      congr 1
      apply List.map_congr_left
      intro j hj
      obtain ⟨b, hb, -⟩ := hsound.chain_pairs c j hj
      have hne : T.pairs[j]? ≠ some k := by
        rw [hb]
        rintro ⟨rfl⟩
        exact hc rfl
      rw [again_freqAt, if_neg hne, Nat.add_zero]

theorem again_unplaced (h : T.Within np nc us) (hsound : T.Sound fun _ => 0) (hmem : k ∈ T.pairs)
    (hctx : k.1 ∉ T.ctxs) : (T.again k).Within np nc (us ++ [k]) where
  met x hx := List.mem_append_left _ (h.met x hx)
  counted _ := h.counted_again
  lost _ := h.lost_again hmem
  unplaced := h.unplaced
  chained := h.chained
  total c := by
    change T.total c = ((T.chain c).map (T.again k).freqAt).sum
    rw [h.total]
    congr 1
    apply List.map_congr_left
    intro j hj
    obtain ⟨b, hb, -⟩ := hsound.chain_pairs c j hj
    have hne : T.pairs[j]? ≠ some k := by
      rw [hb]
      rintro ⟨rfl⟩
      exact hctx (hsound.chain_ctxs _ (List.ne_nil_of_mem hj))
    rw [again_freqAt, if_neg hne, Nat.add_zero]

theorem addPair_freqAt {j : Nat} (hmem : k ∉ T.pairs) :
    (T.addPair k).freqAt j = if j = T.pairs.length then 1 else T.freqAt j := by
  change ((T.pairs ++ [k])[j]?).elim 0 (Function.update T.freq k 1) = _
  rcases Nat.lt_trichotomy j T.pairs.length with hlt | rfl | hlt
  · have hne : T.pairs[j] ≠ k := fun heq => hmem (heq ▸ List.getElem_mem hlt)
    rw [if_neg hlt.ne, freqAt, List.getElem?_append_left hlt, List.getElem?_eq_getElem hlt,
      Option.elim_some, Option.elim_some, Function.update_of_ne hne]
  · rw [if_pos rfl, List.getElem?_append_right (Nat.le_refl _), Nat.sub_self]
    exact Function.update_self _ _ _
  · have hnone : (T.pairs ++ [k])[j]? = none := by
      rw [List.getElem?_eq_none_iff, List.length_append, List.length_singleton]
      exact hlt
    rw [if_neg hlt.ne', freqAt, hnone, List.getElem?_eq_none hlt.le]
    rfl

theorem met_addPair (h : T.Within np nc us) {x : κ × β} (hx : x ∈ T.pairs ++ [k]) :
    x ∈ us ++ [k] := by
  rcases List.mem_append.1 hx with hx | hx
  · exact List.mem_append_left _ (h.met x hx)
  · exact List.mem_append_right _ hx

theorem counted_addPair (h : T.Within np nc us) (hmem : k ∉ T.pairs) (hroom : T.pairs.length < np)
    {x : κ × β} (hx : x ∈ T.pairs ++ [k]) : (T.addPair k).freq x = (us ++ [k]).count x := by
  have hnew : us.count k = 0 := List.count_eq_zero.2 fun hus =>
    absurd (h.lost k hus hmem) (Nat.not_le_of_lt hroom)
  change Function.update T.freq k 1 x = _
  rw [count_snoc, Function.update_apply]
  split_ifs with hxk
  · rw [hxk, hnew]
  · rcases List.mem_append.1 hx with hx | hx
    · exact h.counted x hx
    · exact absurd (List.mem_singleton.1 hx) hxk

theorem lost_addPair (h : T.Within np nc us) (hroom : T.pairs.length < np) {x : κ × β}
    (hx : x ∈ us ++ [k]) (hnew : x ∉ T.pairs ++ [k]) : np ≤ (T.pairs ++ [k]).length := by
  rw [List.mem_append, not_or] at hnew
  rcases List.mem_append.1 hx with hx | hx
  · exact absurd (h.lost x hx hnew.1) (Nat.not_le_of_lt hroom)
  · exact absurd hx hnew.2

theorem sum_addPair (hsound : T.Sound fun _ => 0) (hmem : k ∉ T.pairs) (c : κ) :
    ((T.chain c).map (T.addPair k).freqAt).sum = ((T.chain c).map T.freqAt).sum := by
  congr 1
  apply List.map_congr_left
  intro j hj
  obtain ⟨b, hb, -⟩ := hsound.chain_pairs c j hj
  obtain ⟨hlt, -⟩ := List.getElem?_eq_some_iff.1 hb
  rw [addPair_freqAt hmem, if_neg hlt.ne]

theorem addPair_unplaced (h : T.Within np nc us) (hsound : T.Sound fun _ => 0) (hmem : k ∉ T.pairs)
    (hroom : T.pairs.length < np) (hctx : k.1 ∉ T.ctxs) (hfull : nc ≤ T.ctxs.length) :
    (T.addPair k).Within np nc (us ++ [k]) where
  met _ := h.met_addPair
  counted _ := h.counted_addPair hmem hroom
  lost _ := h.lost_addPair hroom
  unplaced _ _ _ := hfull
  chained j x hj hx := by
    rcases getElem?_snoc hj with ⟨-, rfl⟩ | ⟨-, hj⟩
    · exact absurd hx hctx
    · exact h.chained j x hj hx
  total c := (h.total c).trans (sum_addPair hsound hmem c).symm

theorem addPair_bump (h : T.Within np nc us) (hsound : T.Sound fun _ => 0) (hmem : k ∉ T.pairs)
    (hroom : T.pairs.length < np) {l : List κ} (hl : ∀ c, c ∈ l ↔ c ∈ T.ctxs ∨ c = k.1)
    (hlen : T.ctxs.length ≤ l.length) (hctx : k.1 ∈ T.ctxs ∨ T.ctxs.length < nc) :
    (({ T.addPair k with ctxs := l }).bump (some T.pairs.length) k.1).Within np nc (us ++ [k]) where
  met _ := h.met_addPair
  counted _ := h.counted_addPair hmem hroom
  lost _ := h.lost_addPair hroom
  unplaced x hx hnot := by
    rcases List.mem_append.1 hx with hx | hx
    · exact (h.unplaced x hx fun hc => hnot ((hl x.1).2 (.inl hc))).trans hlen
    · exact absurd ((hl x.1).2 (.inr (List.mem_singleton.1 hx ▸ rfl))) hnot
  chained j x hj hx := by
    change j ∈ Function.update T.chain k.1 (T.pairs.length :: T.chain k.1) x.1
    rw [Function.update_apply]
    rcases getElem?_snoc hj with ⟨rfl, rfl⟩ | ⟨-, hj⟩
    · rw [if_pos rfl]
      exact List.mem_cons_self
    · split_ifs with hc
      · -- an older pair of the context: the context had its place then
        have hold : x.1 ∈ T.ctxs := by
          by_contra hnot
          rcases hctx with hctx | hlt
          · exact hnot (hc ▸ hctx)
          · exact absurd (h.unplaced x (List.mem_of_getElem? hj) hnot) (Nat.not_le_of_lt hlt)
        exact List.mem_cons_of_mem _ (hc ▸ h.chained j x hj hold)
      · exact h.chained j x hj (((hl x.1).1 hx).resolve_right hc)
  total c := by
    change Function.update T.total k.1 (T.total k.1 + 1) c =
      ((Function.update T.chain k.1 (T.pairs.length :: T.chain k.1) c).map (T.addPair k).freqAt).sum
    rw [Function.update_apply, Function.update_apply]
    split_ifs with hc
    · rw [List.map_cons, List.sum_cons, sum_addPair hsound hmem, ← h.total, addPair_freqAt hmem,
        if_pos rfl, Nat.add_comm]
    · rw [sum_addPair hsound hmem]
      exact h.total c

theorem update (h : T.Within np nc us) (hsound : T.Sound fun _ => 0) (k : κ × β) :
    (T.updateWithin np nc k).Within np nc (us ++ [k]) := by
  have hsee := h.see k.1
  have hsound := hsound.see_settled k.1
  unfold updateWithin Tally.update recordPair
  by_cases hmem : k ∈ T.pairs
  · rw [if_pos (show k ∈ (T.see k.1).pairs from hmem)]
    dsimp only [follow, recordCtx]
    by_cases hctx : k.1 ∈ T.ctxs
    · rw [if_pos (show k.1 ∈ ((T.see k.1).again k).ctxs from hctx)]
      exact hsee.again_bump hsound hmem hctx
    · have hfull := h.unplaced k hmem hctx
      rw [if_neg (show k.1 ∉ ((T.see k.1).again k).ctxs from hctx),
        if_neg (by simpa using hfull)]
      exact hsee.again_unplaced hsound hmem hctx
  · rw [if_neg (show k ∉ (T.see k.1).pairs from hmem)]
    by_cases hroom : T.pairs.length < np
    · rw [if_pos (decide_eq_true hroom)]
      dsimp only [follow, recordCtx]
      by_cases hctx : k.1 ∈ T.ctxs
      · rw [if_pos (show k.1 ∈ ((T.see k.1).addPair k).ctxs from hctx)]
        refine hsee.addPair_bump hsound hmem hroom (l := T.ctxs) (fun c => ?_) le_rfl (.inl hctx)
        exact ⟨.inl, fun hc => hc.elim id fun heq => heq ▸ hctx⟩
      · rw [if_neg (show k.1 ∉ ((T.see k.1).addPair k).ctxs from hctx)]
        by_cases hplace : T.ctxs.length < nc
        · rw [if_pos (decide_eq_true hplace)]
          refine hsee.addPair_bump hsound hmem hroom (l := T.ctxs ++ [k.1]) (fun c => ?_) ?_
            (.inr hplace)
          · rw [List.mem_append, List.mem_singleton]
            rfl
          · rw [List.length_append]
            exact Nat.le_add_right _ _
        · rw [if_neg (by simpa using hplace)]
          exact hsee.addPair_unplaced hsound hmem hroom hctx (Nat.le_of_not_lt hplace)
    · rw [if_neg (by simpa using hroom)]
      exact hsee.drop hmem (Nat.le_of_not_lt hroom)

end Within

/-- The tally of a list of updates, with room for `np` pairs and `nc` contexts. -/
def within (np nc : Nat) (us : List (κ × β)) : Tally κ β :=
  us.foldl (fun T k => T.updateWithin np nc k) empty

@[simp] theorem within_concat (np nc : Nat) (us : List (κ × β)) (k : κ × β) :
    within np nc (us ++ [k]) = (within np nc us).updateWithin np nc k := List.foldl_append

theorem within_eq_all (hp : us.toFinset.card ≤ np) (hc : (us.map Prod.fst).toFinset.card ≤ nc) :
    within np nc us = all us := by
  induction us using List.reverseRecOn with
  | nil => rfl
  | append_singleton us k ih =>
    obtain ⟨hpair, hctx⟩ := all_room hp hc
    rw [List.map_append] at hc
    rw [within_concat, all_concat,
      ih ((card_toFinset_append_le _ _).trans hp) ((card_toFinset_append_le _ _).trans hc)]
    exact update_of_room (hpair.imp_right (decide_eq_true ·)) (hctx.imp_right (decide_eq_true ·))

end Bcb.Lib.Tally
