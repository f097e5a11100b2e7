import Bcb.Bt.Reader
import Bcb.Lib.Buckets

namespace Bcb.V0

open Lib Bt

/-- `pool`, `pool_used` and `buckets` of the `BtTable`, or their counterparts for contexts, with
the sizes of the two arrays. -/
structure Pool (α : Type) where
  pool : Nat → α
  used : Nat
  cap : Nat
  buckets : Nat → Int
  nbuckets : Nat

namespace Pool

section Operations

variable {α : Type}

def read (t : Pool α) (i : Nat) : Outcome α := if i < t.cap then pure (t.pool i) else throw .oob

def readBucket (t : Pool α) (h : Nat) : Outcome Int :=
  if h < t.nbuckets then pure (t.buckets h) else throw .oob

/-- `idx=buckets[h]; while(idx>=0){ ... idx=e->chain; }` up to an entry that is the same.  A walk
longer than the pool has met an entry twice. -/
def find (chain : α → Int) (same : α → Bool) (h : Nat) (t : Pool α) : Outcome (Option Nat) := do
  let idx ← t.readBucket h
  seek .diverge t.read (fun e => link (chain e)) same (t.cap + 1) (link idx)

/-- The next entry, and it becomes the first of its bucket. -/
def push (t : Pool α) (h : Nat) (e : α) : Pool α :=
  { t with
    pool := Function.update t.pool t.used e
    buckets := Function.update t.buckets h (toInt32 t.used)
    used := t.used + 1 }

def modify (t : Pool α) (i : Nat) (f : α → α) : Pool α :=
  { t with pool := Function.update t.pool i (f (t.pool i)) }

@[simp] theorem push_pool (t : Pool α) (h : Nat) (e : α) (i : Nat) :
    (t.push h e).pool i = if i = t.used then e else t.pool i := Function.update_apply _ _ _ _

@[simp] theorem modify_pool (t : Pool α) (i : Nat) (f : α → α) (j : Nat) :
    (t.modify i f).pool j = if j = i then f (t.pool i) else t.pool j :=
  Function.update_apply _ _ _ _

theorem read_ok {t : Pool α} {i : Nat} (h : i < t.cap) : t.read i = .ok (t.pool i) := if_pos h

end Operations

/-- How the entries of a pool stand for keys: what they are linked by, where they hang, and which
key an entry has. -/
structure Keys (α κ : Type) where
  chain : α → Int
  home : α → Nat
  same : κ → α → Bool
  bucket : κ → Nat
  unique : ∀ {e k k'}, same k e = true → same k' e = true → k = k'
  home_eq : ∀ {e k}, same k e = true → home e = bucket k

/-- The pool holds the keys `ks`, in the order they came in. -/
structure Stores {α κ : Type} (K : Keys α κ) (ks : List κ) (t : Pool α) : Prop where
  used : t.used = ks.length
  le : t.used ≤ t.cap
  cap_le : t.cap ≤ 2 ^ 31
  buckets : ∀ k, K.bucket k < t.nbuckets
  same : ∀ i k, ks[i]? = some k → K.same k (t.pool i) = true
  hung : Hung (fun i => K.home (t.pool i)) (fun b => link (t.buckets b))
    (fun i => link (K.chain (t.pool i))) t.used

namespace Stores

variable {α κ : Type} {K : Keys α κ} {ks : List κ} {t : Pool α} {k : κ}

theorem same_iff (h : Stores K ks t) {i : Nat} (hi : i < t.used) :
    K.same k (t.pool i) = true ↔ ks[i]? = some k := by
  rw [h.used] at hi
  have hk := h.same i _ (List.getElem?_eq_getElem hi)
  constructor
  · intro hs
    rw [List.getElem?_eq_getElem hi, K.unique hs hk]
  · exact h.same i k

theorem read (h : Stores K ks t) {i : Nat} (hi : ks[i]? = some k) :
    t.read i = .ok (t.pool i) := by
  have hlt : i < t.used := h.used ▸ (List.getElem?_eq_some_iff.1 hi).1
  exact read_ok (hlt.trans_le h.le)

theorem find_some (h : Stores K ks t) (hnodup : ks.Nodup) {i : Nat} (hi : ks[i]? = some k) :
    t.find K.chain (K.same k) (K.bucket k) = .ok (some i) := by
  have hlt : i < t.used := h.used ▸ (List.getElem?_eq_some_iff.1 hi).1
  have hone : ∀ j < t.used, K.same k (t.pool j) = true ↔ j = i := by
    intro j hj
    rw [h.same_iff hj]
    constructor
    · intro hjk
      exact (List.getElem?_inj (h.used ▸ hj) hnodup).1 (hjk.trans hi.symm)
    · rintro rfl
      exact hi
  have hread : ∀ j < t.used, t.read j = .ok (t.pool j) := fun j hj => read_ok (hj.trans_le h.le)
  have hseek : seek .diverge t.read (fun e => link (K.chain e)) (K.same k) (t.cap + 1)
      (link (t.buckets (K.home (t.pool i)))) = .ok (some i) :=
    h.hung.seek_some (fun e => link (K.chain e)) t.pool hread (Nat.lt_succ_of_le h.le) hlt hone
  rw [K.home_eq (h.same i k hi)] at hseek
  rw [find, readBucket, if_pos (h.buckets k)]
  exact hseek

theorem find_none (h : Stores K ks t) (hk : k ∉ ks) :
    t.find K.chain (K.same k) (K.bucket k) = .ok none := by
  have hnone : ∀ j < t.used, ¬ K.same k (t.pool j) = true := fun j hj hs =>
    hk (List.mem_of_getElem? ((h.same_iff hj).1 hs))
  have hread : ∀ j < t.used, t.read j = .ok (t.pool j) := fun j hj => read_ok (hj.trans_le h.le)
  have hseek : seek .diverge t.read (fun e => link (K.chain e)) (K.same k) (t.cap + 1)
      (link (t.buckets (K.bucket k))) = .ok none :=
    h.hung.seek_none (fun e => link (K.chain e)) t.pool hread (Nat.lt_succ_of_le h.le) hnone _
  rw [find, readBucket, if_pos (h.buckets k)]
  exact hseek

theorem push (h : Stores K ks t) (hroom : t.used < t.cap) {e : α} (he : K.same k e = true)
    (hchain : K.chain e = t.buckets (K.bucket k)) :
    Stores K (ks ++ [k]) (t.push (K.bucket k) e) where
  used := by
    rw [List.length_append, ← h.used]
    rfl
  le := hroom
  cap_le := h.cap_le
  buckets := h.buckets
  same i k' hi := by
    rw [push_pool, h.used]
    rcases Nat.lt_trichotomy i ks.length with hlt | rfl | hgt
    · rw [if_neg hlt.ne]
      rw [List.getElem?_append_left hlt] at hi
      exact h.same i k' hi
    · rw [List.getElem?_concat_length] at hi
      rw [if_pos rfl, ← Option.some.inj hi]
      exact he
    · rw [List.getElem?_eq_none (by rw [List.length_append]; exact hgt)] at hi
      cases hi
  hung := by
    have hlast : (t.push (K.bucket k) e).pool t.used = e := by rw [push_pool, if_pos rfl]
    have hold : ∀ i < t.used, (t.push (K.bucket k) e).pool i = t.pool i := fun i hi => by
      rw [push_pool, if_neg hi.ne]
    have hcongr : Hung (fun i => K.home ((t.push (K.bucket k) e).pool i))
        (fun b => link (t.buckets b)) (fun i => link (K.chain ((t.push (K.bucket k) e).pool i)))
        t.used :=
      h.hung.congr (fun i hi => by rw [hold i hi]) fun i hi => by rw [hold i hi]
    have hpush := hcongr.push (by rw [hlast, K.home_eq he, hchain])
    have hlink : link (toInt32 t.used) = some t.used := by
      have hlt := hroom.trans_le h.cap_le
      rw [link_toInt32 (by omega), if_pos hlt]
    rw [hlast, K.home_eq he, ← hlink] at hpush
    have hheads : (fun b => link ((t.push (K.bucket k) e).buckets b)) =
        Function.update (fun b => link (t.buckets b)) (K.bucket k) (link (toInt32 t.used)) :=
      Function.comp_update link t.buckets _ _
    rw [hheads]
    exact hpush

theorem modify (h : Stores K ks t) {i : Nat} {f : α → α} (hsame : ∀ k, K.same k (f (t.pool i)) =
    K.same k (t.pool i)) (hhome : K.home (f (t.pool i)) = K.home (t.pool i))
    (hchain : K.chain (f (t.pool i)) = K.chain (t.pool i)) : Stores K ks (t.modify i f) where
  used := h.used
  le := h.le
  cap_le := h.cap_le
  buckets := h.buckets
  same j k hj := by
    rw [modify_pool]
    split_ifs with hji
    · subst hji
      exact (hsame k).trans (h.same j k hj)
    · exact h.same j k hj
  hung := by
    apply h.hung.congr
    · intro j _
      rw [modify_pool]
      split_ifs with hji
      · rw [hji, hhome]
      · rfl
    · intro j _
      rw [modify_pool]
      split_ifs with hji
      · rw [hji, hchain]
      · rfl

end Stores

end Pool

end Bcb.V0
