import Mathlib.Data.Finset.Card
import Mathlib.Data.List.Count
import Mathlib.Data.List.Induction
import Mathlib.Data.List.Nodup
import Mathlib.Data.List.Perm.Subperm
import Mathlib.Logic.Function.Basic
import Mathlib.Tactic.Common

/-! Counting what follows a context, in tables that may have no room for more. -/

namespace Bcb.Lib

/-- The recorded pairs and contexts, each in the order it came in.  `chain` lists the places
of the pairs of a context, the latest first; `seen` are the contexts met, recorded or not. -/
structure Tally (κ β : Type) where
  pairs : List (κ × β)
  ctxs : List κ
  freq : κ × β → Nat
  total : κ → Nat
  chain : κ → List Nat
  seen : List κ

namespace Tally

variable {κ β : Type}

def empty : Tally κ β := ⟨[], [], fun _ => 0, fun _ => 0, fun _ => [], []⟩

def see (c : κ) (T : Tally κ β) : Tally κ β := { T with seen := T.seen ++ [c] }

def addCtx (c : κ) (T : Tally κ β) : Tally κ β := { T with ctxs := T.ctxs ++ [c] }

variable [DecidableEq κ]

/-- Whether the context has a place. -/
def recordCtx (room : Bool) (c : κ) (T : Tally κ β) : Bool × Tally κ β :=
  if c ∈ T.ctxs then (true, T)
  else if room then (true, T.addCtx c)
  else (false, T)

/-- One more position after a context, with the place of its new pair. -/
def bump (new : Option Nat) (c : κ) (T : Tally κ β) : Tally κ β :=
  { T with
    total := Function.update T.total c (T.total c + 1)
    chain := match new with
      | none => T.chain
      | some j => Function.update T.chain c (j :: T.chain c) }

def follow (room : Bool) (new : Option Nat) (c : κ) (T : Tally κ β) : Tally κ β :=
  match T.recordCtx room c with
  | (true, T) => T.bump new c
  | (false, T) => T

/-- What the tables hold together.  `extra` is what a context is still to be counted. -/
structure Sound (extra : κ → Nat) (T : Tally κ β) : Prop where
  pairs_nodup : T.pairs.Nodup
  pairs_seen : ∀ k ∈ T.pairs, k.1 ∈ T.seen
  ctxs_nodup : T.ctxs.Nodup
  ctxs_pairs : ∀ c ∈ T.ctxs, ∃ b, (c, b) ∈ T.pairs
  chain_ctxs : ∀ c, T.chain c ≠ [] → c ∈ T.ctxs
  total_ctxs : ∀ c, c ∉ T.ctxs → T.total c = 0
  chain_nodup : ∀ c, (T.chain c).Nodup
  chain_pairs : ∀ c, ∀ j ∈ T.chain c, ∃ b, T.pairs[j]? = some (c, b) ∧
    0 < T.freq (c, b) ∧ T.freq (c, b) ≤ T.total c + extra c
  total_le : ∀ c, T.total c + extra c ≤ T.seen.count c

/-- One context is to be counted once more. -/
def pending (c : κ) : κ → Nat := Function.update (fun _ => 0) c 1

variable {T : Tally κ β} {k : κ × β} {c : κ} {room roomPair roomCtx : Bool}

theorem nodup_snoc {γ : Type} {l : List γ} {a : γ} (h : l.Nodup) (ha : a ∉ l) :
    (l ++ [a]).Nodup := by
  rw [← List.concat_eq_append]
  exact h.concat ha

theorem getElem?_snoc {γ : Type} {l : List γ} {a x : γ} {j : Nat} (h : (l ++ [a])[j]? = some x) :
    (j = l.length ∧ x = a) ∨ (j < l.length ∧ l[j]? = some x) := by
  rcases Nat.lt_trichotomy j l.length with hlt | rfl | hgt
  · rw [List.getElem?_append_left hlt] at h
    exact .inr ⟨hlt, h⟩
  · rw [List.getElem?_concat_length] at h
    exact .inl ⟨rfl, (Option.some.inj h).symm⟩
  · rw [List.getElem?_eq_none (by rw [List.length_append, List.length_singleton]; exact hgt)] at h
    cases h

theorem empty_sound : (empty : Tally κ β).Sound fun _ => 0 where
  pairs_nodup := List.nodup_nil
  pairs_seen _ h := nomatch h
  ctxs_nodup := List.nodup_nil
  ctxs_pairs _ h := nomatch h
  chain_ctxs _ h := absurd rfl h
  total_ctxs _ _ := rfl
  chain_nodup _ := List.nodup_nil
  chain_pairs _ _ h := nomatch h
  total_le _ := Nat.zero_le _

theorem recordCtx_pairs (room : Bool) (c : κ) (T : Tally κ β) :
    (T.recordCtx room c).2.pairs = T.pairs ∧ (T.recordCtx room c).2.freq = T.freq ∧
      (T.recordCtx room c).2.chain = T.chain := by
  unfold recordCtx
  split_ifs <;> exact ⟨rfl, rfl, rfl⟩

theorem follow_of_true {new : Option Nat} (h : (T.recordCtx room c).1 = true) :
    T.follow room new c = (T.recordCtx room c).2.bump new c := by
  rw [follow, ← Prod.eta (T.recordCtx room c), h]

theorem follow_of_false {new : Option Nat} (h : (T.recordCtx room c).1 = false) :
    T.follow room new c = (T.recordCtx room c).2 := by
  rw [follow, ← Prod.eta (T.recordCtx room c), h]

theorem follow_pairs (room : Bool) (new : Option Nat) (c : κ) (T : Tally κ β) :
    (T.follow room new c).pairs = T.pairs ∧ (T.follow room new c).seen = T.seen := by
  unfold follow recordCtx
  split_ifs <;> exact ⟨rfl, rfl⟩

namespace Sound

theorem see (h : T.Sound fun _ => 0) (c : κ) : (T.see c).Sound (pending c) where
  pairs_nodup := h.pairs_nodup
  pairs_seen k hk := List.mem_append_left _ (h.pairs_seen k hk)
  ctxs_nodup := h.ctxs_nodup
  ctxs_pairs := h.ctxs_pairs
  chain_ctxs := h.chain_ctxs
  total_ctxs := h.total_ctxs
  chain_nodup := h.chain_nodup
  chain_pairs d j hj := by
    obtain ⟨b, hb, hpos, hle⟩ := h.chain_pairs d j hj
    exact ⟨b, hb, hpos, Nat.le_trans hle (Nat.add_le_add_left (Nat.zero_le _) _)⟩
  total_le d := by
    have hle : T.total d ≤ T.seen.count d := h.total_le d
    change T.total d + pending c d ≤ (T.seen ++ [c]).count d
    rw [List.count_append, List.count_singleton, pending, Function.update_apply]
    by_cases hd : d = c
    · rw [if_pos hd, if_pos (by simp [hd])]
      omega
    · rw [if_neg hd]
      omega

theorem chain_inj {extra : κ → Nat} (h : T.Sound extra) {c d : κ} {j : Nat} (hc : j ∈ T.chain c)
    (hd : j ∈ T.chain d) : c = d := by
  obtain ⟨b, hb, -⟩ := h.chain_pairs c j hc
  obtain ⟨b', hb', -⟩ := h.chain_pairs d j hd
  exact (Prod.mk.inj (Option.some.inj (hb.symm.trans hb'))).1

theorem ctxs_length_le {extra : κ → Nat} (h : T.Sound extra) : T.ctxs.length ≤ T.pairs.length := by
  have hsub : T.ctxs ⊆ T.pairs.map Prod.fst := by
    intro c hc
    obtain ⟨b, hb⟩ := h.ctxs_pairs c hc
    exact List.mem_map_of_mem hb
  have hle := (h.ctxs_nodup.subperm hsub).length_le
  rwa [List.length_map] at hle

/-- What was still to be counted may stay uncounted. -/
theorem settle {extra : κ → Nat} (h : T.Sound extra)
    (hle : ∀ c, ∀ j ∈ T.chain c, ∀ b, T.pairs[j]? = some (c, b) → T.freq (c, b) ≤ T.total c) :
    T.Sound fun _ => 0 where
  pairs_nodup := h.pairs_nodup
  pairs_seen := h.pairs_seen
  ctxs_nodup := h.ctxs_nodup
  ctxs_pairs := h.ctxs_pairs
  chain_ctxs := h.chain_ctxs
  total_ctxs := h.total_ctxs
  chain_nodup := h.chain_nodup
  chain_pairs c j hj := by
    obtain ⟨b, hb, hpos, -⟩ := h.chain_pairs c j hj
    exact ⟨b, hb, hpos, hle c j hj b hb⟩
  total_le c := Nat.le_trans (Nat.le_add_right _ _) (h.total_le c)

theorem see_settled (h : T.Sound fun _ => 0) (c : κ) : (T.see c).Sound fun _ => 0 := by
  apply (h.see c).settle
  intro d j hj b hb
  obtain ⟨b', hb', -, hle⟩ := h.chain_pairs d j hj
  obtain ⟨-, rfl⟩ := Prod.mk.inj (Option.some.inj (hb.symm.trans hb'))
  exact hle

theorem addCtx {extra : κ → Nat} (h : T.Sound extra) (hnew : c ∉ T.ctxs)
    (hpair : ∃ b, (c, b) ∈ T.pairs) : (T.addCtx c).Sound extra where
  pairs_nodup := h.pairs_nodup
  pairs_seen := h.pairs_seen
  ctxs_nodup := nodup_snoc h.ctxs_nodup hnew
  ctxs_pairs d hd := by
    rcases List.mem_append.1 hd with hd | hd
    · exact h.ctxs_pairs d hd
    · exact List.mem_singleton.1 hd ▸ hpair
  chain_ctxs d hd := List.mem_append_left _ (h.chain_ctxs d hd)
  total_ctxs d hd := h.total_ctxs d fun hmem => hd (List.mem_append_left _ hmem)
  chain_nodup := h.chain_nodup
  chain_pairs := h.chain_pairs
  total_le := h.total_le

/-- A place the pair of which is in no chain yet. -/
structure NewPlace (k : κ × β) (T : Tally κ β) (j : Nat) : Prop where
  pair : T.pairs[j]? = some k
  once : T.freq k = 1
  free : ∀ c, j ∉ T.chain c

theorem bump (h : T.Sound (pending k.1)) (hctx : k.1 ∈ T.ctxs) {new : Option Nat}
    (hnew : ∀ j, new = some j → NewPlace k T j) : (T.bump new k.1).Sound fun _ => 0 := by
  have htotal : ∀ c, T.total c + pending k.1 c =
      Function.update T.total k.1 (T.total k.1 + 1) c := by
    intro c
    simp only [pending, Function.update_apply]
    by_cases hc : c = k.1
    · rw [if_pos hc, if_pos hc, hc]
    · rw [if_neg hc, if_neg hc]
      rfl
  have hchain : ∀ c, ∀ j ∈ T.chain c, ∃ b, T.pairs[j]? = some (c, b) ∧ 0 < T.freq (c, b) ∧
      T.freq (c, b) ≤ Function.update T.total k.1 (T.total k.1 + 1) c := by
    intro c j hj
    obtain ⟨b, hb, hpos, hle⟩ := h.chain_pairs c j hj
    exact ⟨b, hb, hpos, htotal c ▸ hle⟩
  have hcount : ∀ c, Function.update T.total k.1 (T.total k.1 + 1) c ≤ T.seen.count c :=
    fun c => htotal c ▸ h.total_le c
  have hnone : ∀ c, c ∉ T.ctxs → Function.update T.total k.1 (T.total k.1 + 1) c = 0 := by
    intro c hc
    have hne : c ≠ k.1 := fun heq => hc (heq ▸ hctx)
    rw [Function.update_of_ne hne, h.total_ctxs c hc]
  cases new with
  | none =>
    exact ⟨h.pairs_nodup, h.pairs_seen, h.ctxs_nodup, h.ctxs_pairs, h.chain_ctxs, hnone,
      h.chain_nodup, hchain, hcount⟩
  | some j =>
    obtain ⟨hpair, honce, hfree⟩ := hnew j rfl
    have hcases : ∀ c, Function.update T.chain k.1 (j :: T.chain k.1) c = T.chain c ∨
        c = k.1 ∧ Function.update T.chain k.1 (j :: T.chain k.1) c = j :: T.chain c := by
      intro c
      by_cases hc : c = k.1
      · subst hc
        exact .inr ⟨rfl, Function.update_self _ _ _⟩
      · exact .inl (Function.update_of_ne hc _ _)
    refine ⟨h.pairs_nodup, h.pairs_seen, h.ctxs_nodup, h.ctxs_pairs, ?_, hnone, ?_, ?_, hcount⟩
    · intro c hc
      rcases hcases c with heq | ⟨rfl, -⟩
      · exact h.chain_ctxs c fun hnil => hc (heq.trans hnil)
      · exact hctx
    · intro c
      rcases hcases c with heq | ⟨rfl, heq⟩
      · change (Function.update T.chain k.1 (j :: T.chain k.1) c).Nodup
        exact heq ▸ h.chain_nodup c
      · change (Function.update T.chain k.1 (j :: T.chain k.1) k.1).Nodup
        rw [heq]
        exact List.nodup_cons.2 ⟨hfree k.1, h.chain_nodup k.1⟩
    · intro c i hi
      change i ∈ Function.update T.chain k.1 (j :: T.chain k.1) c at hi
      rcases hcases c with heq | ⟨rfl, heq⟩
      · exact hchain c i (heq ▸ hi)
      · rw [heq] at hi
        rcases List.mem_cons.1 hi with rfl | hi
        · refine ⟨k.2, hpair, honce ▸ Nat.one_pos, ?_⟩
          change T.freq k ≤ Function.update T.total k.1 (T.total k.1 + 1) k.1
          rw [honce, Function.update_self]
          exact Nat.le_add_left _ _
        · exact hchain k.1 i hi

theorem follow (h : T.Sound (pending k.1)) (hpair : k ∈ T.pairs) {new : Option Nat}
    (hnew : ∀ j, new = some j → NewPlace k T j) : (T.follow room new k.1).Sound fun _ => 0 := by
  unfold Tally.follow recordCtx
  split_ifs with hmem hroom
  · exact h.bump hmem hnew
  · apply (h.addCtx hmem ⟨k.2, hpair⟩).bump (List.mem_append_right _ List.mem_cons_self)
    exact fun j hj => ⟨(hnew j hj).pair, (hnew j hj).once, (hnew j hj).free⟩
  · -- a context without a place has no chain
    apply h.settle
    intro c j hj b hb
    obtain ⟨b', hb', -, hle⟩ := h.chain_pairs c j hj
    have hne : c ≠ k.1 := by
      rintro rfl
      exact hmem (h.chain_ctxs _ (List.ne_nil_of_mem hj))
    obtain ⟨-, rfl⟩ := Prod.mk.inj (Option.some.inj (hb.symm.trans hb'))
    rwa [pending, Function.update_of_ne hne] at hle

end Sound

variable [DecidableEq β]

def again (k : κ × β) (T : Tally κ β) : Tally κ β :=
  { T with freq := Function.update T.freq k (T.freq k + 1) }

def addPair (k : κ × β) (T : Tally κ β) : Tally κ β :=
  { T with
    pairs := T.pairs ++ [k]
    freq := Function.update T.freq k 1 }

/-- Counts a pair: `none` where it is new and has no room, else its place if it is new. -/
def recordPair (room : Bool) (k : κ × β) (T : Tally κ β) : Option (Option Nat) × Tally κ β :=
  if k ∈ T.pairs then (some none, T.again k)
  else if room then (some (some T.pairs.length), T.addPair k)
  else (none, T)

def update (roomPair roomCtx : Bool) (k : κ × β) (T : Tally κ β) : Tally κ β :=
  match (T.see k.1).recordPair roomPair k with
  | (none, T) => T
  | (some new, T) => T.follow roomCtx new k.1

theorem update_of_none (h : ((T.see k.1).recordPair roomPair k).1 = none) :
    T.update roomPair roomCtx k = T.see k.1 := by
  unfold update recordPair at *
  split_ifs at *
  rfl

theorem update_of_some {new : Option Nat}
    (h : ((T.see k.1).recordPair roomPair k).1 = some new) : T.update roomPair roomCtx k =
      ((T.see k.1).recordPair roomPair k).2.follow roomCtx new k.1 := by
  rw [update, ← Prod.eta ((T.see k.1).recordPair roomPair k), h]

theorem recordPair_none (h : (T.recordPair room k).1 = none) : (T.recordPair room k).2 = T := by
  unfold recordPair at *
  split_ifs at *
  rfl

theorem recordPair_length_le (room : Bool) (k : κ × β) (T : Tally κ β) :
    T.pairs.length ≤ (T.recordPair room k).2.pairs.length := by
  unfold recordPair
  split_ifs
  · exact Nat.le_refl _
  · exact List.length_append ▸ Nat.le_add_right _ _
  · exact Nat.le_refl _

theorem recordPair_ctxs (room : Bool) (k : κ × β) (T : Tally κ β) :
    (T.recordPair room k).2.ctxs = T.ctxs ∧ (T.recordPair room k).2.total = T.total ∧
      (T.recordPair room k).2.chain = T.chain ∧ (T.recordPair room k).2.seen = T.seen := by
  unfold recordPair
  split_ifs <;> exact ⟨rfl, rfl, rfl, rfl⟩

theorem update_of_room (hpair : k ∈ T.pairs ∨ roomPair = true)
    (hctx : k.1 ∈ T.ctxs ∨ roomCtx = true) :
    T.update roomPair roomCtx k = T.update true true k := by
  have hrec : (T.see k.1).recordPair roomPair k = (T.see k.1).recordPair true k := by
    rcases hpair with hmem | rfl
    · have hsee : k ∈ (T.see k.1).pairs := hmem
      rw [recordPair, recordPair, if_pos hsee, if_pos hsee]
    · rfl
  have hfollow : ∀ new, ((T.see k.1).recordPair true k).2.follow roomCtx new k.1 =
      ((T.see k.1).recordPair true k).2.follow true new k.1 := by
    intro new
    rcases hctx with hmem | rfl
    · have hrecord : k.1 ∈ ((T.see k.1).recordPair true k).2.ctxs :=
        (recordPair_ctxs true k (T.see k.1)).1.symm ▸ hmem
      rw [follow, follow, recordCtx, recordCtx, if_pos hrecord, if_pos hrecord]
    · rfl
  cases hsome : ((T.see k.1).recordPair true k).1 with
  | none => rw [update_of_none (hrec ▸ hsome), update_of_none hsome]
  | some new => rw [update_of_some (hrec ▸ hsome), update_of_some hsome, hrec, hfollow]

theorem update_true_ctxs (roomCtx : Bool) (k : κ × β) (T : Tally κ β) :
    (T.update true roomCtx k).ctxs =
      if k.1 ∉ T.ctxs ∧ roomCtx = true then T.ctxs ++ [k.1] else T.ctxs := by
  have hsome : ∃ new, ((T.see k.1).recordPair true k).1 = some new := by
    rw [recordPair, if_pos rfl]
    split_ifs <;> exact ⟨_, rfl⟩
  obtain ⟨new, hnew⟩ := hsome
  have hctxs : ((T.see k.1).recordPair true k).2.ctxs = T.ctxs :=
    (recordPair_ctxs true k (T.see k.1)).1
  rw [update_of_some hnew]
  unfold follow recordCtx
  rw [hctxs]
  by_cases hmem : k.1 ∈ T.ctxs
  · rw [if_pos hmem, if_neg fun h => h.1 hmem]
    exact hctxs
  · rw [if_neg hmem]
    cases roomCtx with
    | false =>
      rw [if_neg Bool.false_ne_true, if_neg fun h => Bool.false_ne_true h.2]
      exact hctxs
    | true =>
      rw [if_pos rfl, if_pos ⟨hmem, rfl⟩]
      exact congrArg (· ++ [k.1]) hctxs

theorem update_pairs (roomPair roomCtx : Bool) (k : κ × β) (T : Tally κ β) :
    (T.update roomPair roomCtx k).pairs = ((T.see k.1).recordPair roomPair k).2.pairs ∧
      (T.update roomPair roomCtx k).seen = T.seen ++ [k.1] := by
  cases hrec : ((T.see k.1).recordPair roomPair k).1 with
  | none =>
    rw [update_of_none hrec, recordPair_none hrec]
    exact ⟨rfl, rfl⟩
  | some new =>
    rw [update_of_some hrec]
    obtain ⟨hp, hs⟩ := follow_pairs roomCtx new k.1 ((T.see k.1).recordPair roomPair k).2
    exact ⟨hp, hs.trans (recordPair_ctxs roomPair k (T.see k.1)).2.2.2⟩

theorem update_pairs_length_le (roomPair roomCtx : Bool) (k : κ × β) (T : Tally κ β) :
    (T.update roomPair roomCtx k).pairs.length ≤ T.pairs.length + 1 := by
  rw [(update_pairs roomPair roomCtx k T).1]
  unfold recordPair
  split_ifs
  · exact Nat.le_succ _
  · exact Nat.le_of_eq List.length_append
  · exact Nat.le_succ _

namespace Sound

theorem again (h : T.Sound (pending k.1)) (hextra : T.Sound fun _ => 0) :
    (T.again k).Sound (pending k.1) where
  pairs_nodup := h.pairs_nodup
  pairs_seen := h.pairs_seen
  ctxs_nodup := h.ctxs_nodup
  ctxs_pairs := h.ctxs_pairs
  chain_ctxs := h.chain_ctxs
  total_ctxs := h.total_ctxs
  chain_nodup := h.chain_nodup
  chain_pairs c j hj := by
    obtain ⟨b, hb, hpos, hle⟩ := hextra.chain_pairs c j hj
    refine ⟨b, hb, ?_⟩
    simp only [Tally.again, Function.update_apply, pending]
    by_cases heq : (c, b) = k
    · subst heq
      simp only [if_true]
      exact ⟨Nat.succ_pos _, Nat.succ_le_succ hle⟩
    · rw [if_neg heq]
      exact ⟨hpos, Nat.le_add_right_of_le hle⟩
  total_le := h.total_le

theorem addPair {extra : κ → Nat} (h : T.Sound extra) (hnew : k ∉ T.pairs) (hseen : k.1 ∈ T.seen) :
    (T.addPair k).Sound extra where
  pairs_nodup := nodup_snoc h.pairs_nodup hnew
  pairs_seen x hx := by
    rcases List.mem_append.1 hx with hx | hx
    · exact h.pairs_seen x hx
    · exact List.mem_singleton.1 hx ▸ hseen
  ctxs_nodup := h.ctxs_nodup
  ctxs_pairs c hc := by
    obtain ⟨b, hb⟩ := h.ctxs_pairs c hc
    exact ⟨b, List.mem_append_left _ hb⟩
  chain_ctxs := h.chain_ctxs
  total_ctxs := h.total_ctxs
  chain_nodup := h.chain_nodup
  chain_pairs c j hj := by
    obtain ⟨b, hb, hpos, hle⟩ := h.chain_pairs c j hj
    have hne : (c, b) ≠ k := fun heq => hnew (heq ▸ List.mem_of_getElem? hb)
    have hfreq : (T.addPair k).freq (c, b) = T.freq (c, b) := Function.update_of_ne hne _ _
    obtain ⟨hlt, -⟩ := List.getElem?_eq_some_iff.1 hb
    refine ⟨b, ?_, hfreq ▸ hpos, hfreq ▸ hle⟩
    change (T.pairs ++ [k])[j]? = some (c, b)
    rw [List.getElem?_append_left hlt, hb]
  total_le := h.total_le

theorem recordPair (h : T.Sound fun _ => 0) {new : Option Nat}
    (hrec : ((T.see k.1).recordPair room k).1 = some new) :
    ((T.see k.1).recordPair room k).2.Sound (pending k.1) ∧
      k ∈ ((T.see k.1).recordPair room k).2.pairs ∧
      ∀ j, new = some j → NewPlace k ((T.see k.1).recordPair room k).2 j := by
  unfold Tally.recordPair at hrec ⊢
  split_ifs at hrec ⊢ with hmem hroom
  · cases hrec
    exact ⟨(h.see k.1).again (h.see_settled k.1), hmem, fun j hj => nomatch hj⟩
  · cases hrec
    have hseen : k.1 ∈ (T.see k.1).seen := List.mem_append_right _ List.mem_cons_self
    refine ⟨(h.see k.1).addPair hmem hseen, List.mem_append_right _ List.mem_cons_self, ?_⟩
    rintro j ⟨rfl⟩
    refine ⟨?_, Function.update_self _ _ _, ?_⟩
    · change (T.pairs ++ [k])[T.pairs.length]? = some k
      rw [List.getElem?_append_right (Nat.le_refl _), Nat.sub_self]
      rfl
    · intro c hj
      obtain ⟨b, hb, -⟩ := h.chain_pairs c _ hj
      obtain ⟨hlt, -⟩ := List.getElem?_eq_some_iff.1 hb
      exact Nat.lt_irrefl _ hlt

theorem update (h : T.Sound fun _ => 0) (roomPair roomCtx : Bool) (k : κ × β) :
    (T.update roomPair roomCtx k).Sound fun _ => 0 := by
  cases hrec : ((T.see k.1).recordPair roomPair k).1 with
  | none =>
    rw [update_of_none hrec]
    exact h.see_settled k.1
  | some new =>
    obtain ⟨hsound, hpair, hnew⟩ := h.recordPair hrec
    rw [update_of_some hrec]
    exact hsound.follow hpair hnew

end Sound

/-- With room for all there is no pair or context but is counted. -/
structure Exact (us : List (κ × β)) (T : Tally κ β) : Prop where
  mem_pairs : ∀ k, k ∈ T.pairs ↔ k ∈ us
  mem_ctxs : ∀ c, c ∈ T.ctxs ↔ c ∈ us.map Prod.fst
  freq : ∀ k, T.freq k = us.count k
  total : ∀ c, T.total c = (us.map Prod.fst).count c
  chained : ∀ k ∈ us, ∃ j ∈ T.chain k.1, T.pairs[j]? = some k

namespace Exact

variable {us : List (κ × β)}

theorem empty : (empty : Tally κ β).Exact [] where
  mem_pairs _ := Iff.rfl
  mem_ctxs _ := Iff.rfl
  freq _ := rfl
  total _ := rfl
  chained _ hk := nomatch hk

theorem freq_eq_zero (h : T.Exact us) {k : κ × β} (hk : k ∉ us) : T.freq k = 0 := by
  rw [h.freq, List.count_eq_zero]
  exact hk

theorem count_concat (us : List (κ × β)) (k x : κ × β) :
    (us ++ [k]).count x = us.count x + if k = x then 1 else 0 := by
  rw [List.count_append, List.count_singleton]
  simp

theorem total_concat (h : T.Exact us) (k : κ × β) (c : κ) :
    Function.update T.total k.1 (T.total k.1 + 1) c = ((us ++ [k]).map Prod.fst).count c := by
  rw [List.map_append, List.map_singleton, List.count_append, List.count_singleton,
    Function.update_apply, ← h.total c]
  by_cases hc : c = k.1
  · simp [hc]
  · simp [hc, Ne.symm hc]

theorem mem_ctxs_concat (h : T.Exact us) (k : κ × β) (c : κ) :
    c ∈ (if k.1 ∈ T.ctxs then T.ctxs else T.ctxs ++ [k.1]) ↔ c ∈ (us ++ [k]).map Prod.fst := by
  rw [List.map_append, List.map_singleton, List.mem_append, List.mem_singleton]
  split_ifs with hmem
  · rw [h.mem_ctxs]
    exact ⟨.inl, fun hc => hc.elim id fun heq => heq ▸ (h.mem_ctxs k.1).1 hmem⟩
  · rw [List.mem_append, List.mem_singleton, h.mem_ctxs]

theorem update_known (h : T.Exact us) (hmem : k ∈ T.pairs) :
    (T.update true true k).Exact (us ++ [k]) := by
  have hus := (h.mem_pairs k).1 hmem
  have hupd : T.update true true k = { T with
      ctxs := if k.1 ∈ T.ctxs then T.ctxs else T.ctxs ++ [k.1]
      freq := Function.update T.freq k (T.freq k + 1)
      total := Function.update T.total k.1 (T.total k.1 + 1)
      seen := T.seen ++ [k.1] } := by
    simp only [Tally.update, Tally.see, Tally.recordPair, if_pos hmem, Tally.again, Tally.follow,
      Tally.recordCtx, Tally.addCtx]
    split_ifs <;> rfl
  rw [hupd]
  refine ⟨?_, h.mem_ctxs_concat k, ?_, h.total_concat k, ?_⟩ <;> dsimp only
  · intro x
    rw [h.mem_pairs, List.mem_append, List.mem_singleton]
    exact ⟨.inl, fun hx => hx.elim id fun heq => heq ▸ hus⟩
  · intro x
    rw [count_concat, Function.update_apply, ← h.freq x]
    by_cases hx : x = k
    · simp [hx]
    · simp [hx, Ne.symm hx]
  · intro x hx
    rw [List.mem_append, List.mem_singleton] at hx
    exact h.chained x (hx.elim id fun heq => heq ▸ hus)

theorem update_new (h : T.Exact us) (hmem : k ∉ T.pairs) :
    (T.update true true k).Exact (us ++ [k]) := by
  have hus : k ∉ us := fun hk => hmem ((h.mem_pairs k).2 hk)
  have hupd : T.update true true k = { T with
      pairs := T.pairs ++ [k]
      ctxs := if k.1 ∈ T.ctxs then T.ctxs else T.ctxs ++ [k.1]
      freq := Function.update T.freq k 1
      total := Function.update T.total k.1 (T.total k.1 + 1)
      chain := Function.update T.chain k.1 (T.pairs.length :: T.chain k.1)
      seen := T.seen ++ [k.1] } := by
    simp only [Tally.update, Tally.see, Tally.recordPair, if_neg hmem, if_true, Tally.addPair,
      Tally.follow, Tally.recordCtx, Tally.addCtx]
    split_ifs <;> rfl
  rw [hupd]
  refine ⟨?_, h.mem_ctxs_concat k, ?_, h.total_concat k, ?_⟩ <;> dsimp only
  · intro x
    rw [List.mem_append, List.mem_append, h.mem_pairs]
  · intro x
    rw [count_concat, Function.update_apply]
    by_cases hx : x = k
    · simp [hx, List.count_eq_zero.2 hus]
    · simp [hx, Ne.symm hx, h.freq]
  · intro x hx
    rcases List.mem_append.1 hx with hx | hx
    · obtain ⟨j, hj, hpair⟩ := h.chained x hx
      obtain ⟨hlt, -⟩ := List.getElem?_eq_some_iff.1 hpair
      refine ⟨j, ?_, by rw [List.getElem?_append_left hlt, hpair]⟩
      by_cases hc : x.1 = k.1
      · rw [hc, Function.update_self]
        exact List.mem_cons_of_mem _ (hc ▸ hj)
      · rwa [Function.update_of_ne hc]
    · obtain rfl := List.mem_singleton.1 hx
      refine ⟨T.pairs.length, ?_, ?_⟩
      · rw [Function.update_self]
        exact List.mem_cons_self
      · rw [List.getElem?_append_right (Nat.le_refl _), Nat.sub_self]
        rfl

theorem update (h : T.Exact us) (k : κ × β) : (T.update true true k).Exact (us ++ [k]) := by
  by_cases hmem : k ∈ T.pairs
  · exact h.update_known hmem
  · exact h.update_new hmem

end Exact

/-- The tally of a list of updates, all with room. -/
def all (us : List (κ × β)) : Tally κ β := us.foldl (fun T k => T.update true true k) empty

@[simp] theorem all_concat (us : List (κ × β)) (k : κ × β) :
    all (us ++ [k]) = (all us).update true true k := List.foldl_append

theorem all_sound (us : List (κ × β)) : (all us).Sound fun _ => 0 := by
  induction us using List.reverseRecOn with
  | nil => exact empty_sound
  | append_singleton us k ih =>
    rw [all_concat]
    exact ih.update true true k

theorem all_exact (us : List (κ × β)) : (all us).Exact us := by
  induction us using List.reverseRecOn with
  | nil => exact Exact.empty
  | append_singleton us k ih =>
    rw [all_concat]
    exact ih.update k

theorem all_pairs_length (us : List (κ × β)) : (all us).pairs.length = us.toFinset.card := by
  rw [← List.toFinset_card_of_nodup (all_sound us).pairs_nodup]
  congr 1
  ext k
  rw [List.mem_toFinset, List.mem_toFinset, (all_exact us).mem_pairs]

theorem all_ctxs_length (us : List (κ × β)) :
    (all us).ctxs.length = (us.map Prod.fst).toFinset.card := by
  rw [← List.toFinset_card_of_nodup (all_sound us).ctxs_nodup]
  congr 1
  ext c
  rw [List.mem_toFinset, List.mem_toFinset, (all_exact us).mem_ctxs]

theorem card_toFinset_append_le {γ : Type} [DecidableEq γ] (l l' : List γ) :
    l.toFinset.card ≤ (l ++ l').toFinset.card :=
  Finset.card_le_card fun _ hx =>
    List.mem_toFinset.2 (List.mem_append_left l' (List.mem_toFinset.1 hx))

theorem card_toFinset_concat {γ : Type} [DecidableEq γ] {l : List γ} {x : γ} (hx : x ∉ l) :
    (l ++ [x]).toFinset.card = l.toFinset.card + 1 := by
  rw [List.toFinset_append, Finset.union_comm]
  exact Finset.card_insert_of_notMem fun hmem => hx (List.mem_toFinset.1 hmem)

theorem all_room {np nc : Nat} {us : List (κ × β)} {k : κ × β}
    (hp : (us ++ [k]).toFinset.card ≤ np) (hc : ((us ++ [k]).map Prod.fst).toFinset.card ≤ nc) :
    (k ∈ (all us).pairs ∨ (all us).pairs.length < np) ∧
      (k.1 ∈ (all us).ctxs ∨ (all us).ctxs.length < nc) := by
  rw [(all_exact us).mem_pairs, (all_exact us).mem_ctxs, all_pairs_length, all_ctxs_length]
  constructor
  · by_cases hmem : k ∈ us
    · exact .inl hmem
    · rw [card_toFinset_concat hmem] at hp
      exact .inr hp
  · by_cases hmem : k.1 ∈ us.map Prod.fst
    · exact .inl hmem
    · rw [List.map_append, List.map_singleton, card_toFinset_concat hmem] at hc
      exact .inr hc

end Tally

end Bcb.Lib
