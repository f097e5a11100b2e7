import Bcb.Bt.Weigh
import Mathlib.Data.List.FinRange

namespace Bcb.Bt

open Lib

variable {B : Build} {r : BtV3Reader}

/-- A context that a level finds active, and its entries. -/
structure Active where
  n : Nat
  cc : CtxEntry
  chain : List BtEntry

def activeOf (B : Build) (r : BtV3Reader) (n : Nat) : Option Active :=
  match activeAt B r n with
  | .ok (some (cc, chain)) => some ⟨n, cc, chain⟩
  | _ => none

def actives (B : Build) (r : BtV3Reader) (ns : List Nat) : List Active :=
  ns.filterMap (activeOf B r)

def Active.act (B : Build) (x : Active) : Act :=
  ⟨x.n, x.cc.totalFreq, (defaultTerm B x.n x.cc.totalFreq).1,
    (defaultTerm B x.n x.cc.totalFreq).2, actFreq x.chain⟩

/-- The term of a byte in a context. -/
def Active.term (B : Build) (x : Active) (b : UInt8) : Int × Int :=
  countTerm B x.n x.cc.totalFreq (actFreq x.chain b)

theorem foldl_update_of_ne {chain : List BtEntry} {b : UInt8} (h : ∀ e ∈ chain, e.nextByte ≠ b)
    (f : UInt8 → UInt32) :
    chain.foldl (fun f e => Function.update f e.nextByte e.freq) f b = f b := by
  induction chain generalizing f with
  | nil => rfl
  | cons e chain ih =>
    rw [List.foldl_cons, ih fun e he => h e (List.mem_cons_of_mem _ he)]
    exact Function.update_of_ne (h e List.mem_cons_self).symm _ _

theorem actFreq_eq_zero {chain : List BtEntry} {b : UInt8} (h : ∀ e ∈ chain, e.nextByte ≠ b) :
    actFreq chain b = 0 := foldl_update_of_ne h _

theorem actFreq_of_zero {chain : List BtEntry} (h : ∀ e ∈ chain, e.freq = 0) (b : UInt8) :
    actFreq chain b = 0 := by
  have hacc : ∀ f : UInt8 → UInt32, f b = 0 →
      chain.foldl (fun f e => Function.update f e.nextByte e.freq) f b = 0 := by
    induction chain with
    | nil => exact fun _ hf => hf
    | cons e chain ih =>
      intro f hf
      obtain ⟨he, hall⟩ := List.forall_mem_cons.1 h
      refine ih hall _ ?_
      change Function.update f e.nextByte e.freq b = 0
      rw [Function.update_apply, he, hf, ite_self]
  exact hacc _ rfl

theorem actFreq_of_mem {chain : List BtEntry} (h : (chain.map BtEntry.nextByte).Nodup) {e : BtEntry}
    (he : e ∈ chain) : actFreq chain e.nextByte = e.freq := by
  have hacc : ∀ f : UInt8 → UInt32,
      chain.foldl (fun f e => Function.update f e.nextByte e.freq) f e.nextByte = e.freq := by
    induction chain with
    | nil => cases he
    | cons x chain ih =>
      intro f
      obtain ⟨hx, hnodup⟩ := List.nodup_cons.1 h
      rw [List.foldl_cons]
      rcases List.mem_cons.1 he with rfl | he
      · have hne : ∀ y ∈ chain, y.nextByte ≠ e.nextByte := fun y hy heq =>
          hx (List.mem_map.2 ⟨y, hy, heq⟩)
        rw [foldl_update_of_ne hne]
        exact Function.update_self _ _ _
      · exact ih hnodup he _
  exact hacc fun _ => 0

/-- The counts of the active contexts `xs` are ones the arithmetic of a level can stand. -/
structure CountsOk (B : Build) (xs : List Active) : Prop where
  spread : ∀ x ∈ xs, spread x.cc.totalFreq ≠ 0
  index : ∀ b, (∃ x ∈ xs, ∃ e ∈ x.chain, e.nextByte = b) →
    ∀ x ∈ xs, IndexOk B x.cc.totalFreq (actFreq x.chain b)
  sum : ∀ b, (∃ x ∈ xs, ∃ e ∈ x.chain, e.nextByte = b) →
    weightedSum B (maxL (xs.map (·.term B b))) (xs.map (·.term B b)) < 2 ^ 63

theorem activeOf_some {n : Nat} {x : Active} (h : activeOf B r n = some x) :
    x.n = n ∧ activeAt B r n = .ok (some (x.cc, x.chain)) := by
  unfold activeOf at h
  split at h
  · next cc chain heq =>
    cases h
    exact ⟨rfl, heq⟩
  · cases h

theorem activeAt_total_ne {n : Nat} {cc : CtxEntry} {chain : List BtEntry}
    (h : activeAt B r n = .ok (some (cc, chain))) : cc.totalFreq ≠ 0 := by
  obtain ⟨hit, -, h⟩ := bind_eq_ok.1 h
  cases hit with
  | false => cases h
  | true =>
    obtain ⟨o, -, h⟩ := bind_eq_ok.1 h
    cases o with
    | none => cases h
    | some cc' =>
      simp only at h
      split_ifs at h with h0
      · cases h
      · obtain ⟨chain', -, h⟩ := bind_eq_ok.1 h
        cases h
        exact h0

theorem mem_actives {ns : List Nat} {x : Active} (h : x ∈ actives B r ns) :
    x.n ∈ ns ∧ x.cc.totalFreq.toNat ≠ 0 := by
  obtain ⟨n, hn, hx⟩ := List.mem_filterMap.1 h
  obtain ⟨rfl, hactive⟩ := activeOf_some hx
  exact ⟨hn, fun h0 => activeAt_total_ne hactive (UInt32.toNat_inj.1 h0)⟩

theorem Active.act_ok {x : Active} (hn : x.n ≤ btMaxDepth) (ht : x.cc.totalFreq.toNat ≠ 0) :
    ActOk B (x.act B) := ⟨hn, ht, rfl⟩

section Scan

variable {ns : List Nat} {acts : List Act} {obs : List UInt8}

theorem scanLevel_ok (hns : ∀ n ∈ ns, n ≤ btMaxDepth) {acts' : List Act} {obs' : List UInt8}
    (h : scanLevel B true r ns (acts, obs) = .ok (acts', obs')) :
    acts' = acts ++ (actives B r ns).map (·.act B) ∧
      obs' = (actives B r ns).foldl (fun obs x => observe obs x.chain) obs ∧
      ∀ x ∈ actives B r ns, spread x.cc.totalFreq ≠ 0 := by
  induction ns generalizing acts obs with
  | nil =>
    cases h
    exact ⟨by simp [actives], rfl, fun _ hx => (nomatch hx)⟩
  | cons n ns ih =>
    have hrest : ∀ n ∈ ns, n ≤ btMaxDepth := fun k hk => hns k (List.mem_cons_of_mem n hk)
    rw [scanLevel] at h
    obtain ⟨o, ho, h⟩ := bind_eq_ok.1 h
    cases o with
    | none =>
      have hnone : activeOf B r n = none := by
        rw [activeOf, ho]
      simp only [actives, List.filterMap_cons, hnone]
      exact ih hrest h
    | some y =>
      obtain ⟨cc, chain⟩ := y
      have hsome : activeOf B r n = some ⟨n, cc, chain⟩ := by
        rw [activeOf, ho]
      obtain ⟨a, ha, h⟩ := bind_eq_ok.1 h
      have hspread : spread cc.totalFreq ≠ 0 := by
        intro h0
        rw [act_divZero n chain h0] at ha
        cases ha
      rw [Bt.act_ok (hns n List.mem_cons_self) chain hspread] at ha
      obtain rfl := Except.ok.inj ha
      obtain ⟨hacts, hobs, hall⟩ := ih hrest h
      simp only [actives, List.filterMap_cons, hsome]
      refine ⟨?_, hobs, ?_⟩
      · rw [hacts, List.append_assoc]
        rfl
      · intro x hx
        rcases List.mem_cons.1 hx with rfl | hx
        · exact hspread
        · exact hall x hx

theorem scanLevel_lookups {luts : Bool} {st st' : List Act × List UInt8}
    (h : scanLevel B luts r ns st = .ok st') {n : Nat} (hn : n ∈ ns) :
    ∃ o, activeAt B r n = .ok o := by
  induction ns generalizing st with
  | nil => cases hn
  | cons m ns ih =>
    obtain ⟨acts, obs⟩ := st
    rw [scanLevel] at h
    obtain ⟨o, ho, h⟩ := bind_eq_ok.1 h
    rcases List.mem_cons.1 hn with rfl | hn
    · exact ⟨o, ho⟩
    · cases o with
      | none => exact ih h hn
      | some x =>
        obtain ⟨a, -, h⟩ := bind_eq_ok.1 h
        exact ih h hn

theorem scanLevel_throws (hlookup : ∀ n ∈ ns, Throws Memory (activeAt B r n))
    (hns : ∀ n ∈ ns, n ≤ btMaxDepth) (h : ∀ x ∈ actives B r ns, spread x.cc.totalFreq ≠ 0)
    (st : List Act × List UInt8) : Throws Memory (scanLevel B true r ns st) := by
  induction ns generalizing st with
  | nil => exact .ok st
  | cons n ns ih =>
    have hrest := ih (fun k hk => hlookup k (List.mem_cons_of_mem n hk))
      fun k hk => hns k (List.mem_cons_of_mem n hk)
    obtain ⟨acts, obs⟩ := st
    rw [scanLevel]
    apply (hlookup n List.mem_cons_self).bind
    intro o ho
    cases o with
    | none =>
      have hnone : activeOf B r n = none := by
        rw [activeOf, ho]
      simp only [actives, List.filterMap_cons, hnone] at h
      exact hrest h _
    | some y =>
      obtain ⟨cc, chain⟩ := y
      have hsome : activeOf B r n = some ⟨n, cc, chain⟩ := by
        rw [activeOf, ho]
      simp only [actives, List.filterMap_cons, hsome] at h
      have hspread : spread cc.totalFreq ≠ 0 := h ⟨n, cc, chain⟩ List.mem_cons_self
      dsimp only
      rw [Bt.act_ok (hns n List.mem_cons_self) chain hspread, ok_bind]
      exact hrest (fun x hx => h x (List.mem_cons_of_mem _ hx)) _

end Scan

theorem mem_observe {obs : List UInt8} {chain : List BtEntry} {b : UInt8} :
    b ∈ observe obs chain ↔ b ∈ obs ∨ ∃ e ∈ chain, e.nextByte = b := by
  unfold observe
  induction chain generalizing obs with
  | nil => simp
  | cons e chain ih =>
    rw [List.foldl_cons, ih]
    by_cases he : e.nextByte ∈ obs
    · rw [if_pos he]
      constructor
      · rintro (hb | ⟨e', he', rfl⟩)
        · exact .inl hb
        · exact .inr ⟨e', List.mem_cons_of_mem e he', rfl⟩
      · rintro (hb | ⟨e', he', rfl⟩)
        · exact .inl hb
        · rcases List.mem_cons.1 he' with rfl | he'
          · exact .inl he
          · exact .inr ⟨e', he', rfl⟩
    · rw [if_neg he, List.mem_append, List.mem_singleton, or_assoc]
      simp [eq_comm]

theorem nodup_observe {obs : List UInt8} (h : obs.Nodup) (chain : List BtEntry) :
    (observe obs chain).Nodup := by
  unfold observe
  induction chain generalizing obs with
  | nil => exact h
  | cons e chain ih =>
    rw [List.foldl_cons]
    apply ih
    split_ifs with he
    · exact h
    · exact List.nodup_append.2 ⟨h, List.nodup_singleton _, by
        intro a ha b hb
        rw [List.mem_singleton.1 hb]
        rintro rfl
        exact he ha⟩

/-- The bytes the active contexts know. -/
def observedIn (xs : List Active) : List UInt8 := xs.foldl (fun obs x => observe obs x.chain) []

theorem mem_observedIn {xs : List Active} {b : UInt8} :
    b ∈ observedIn xs ↔ ∃ x ∈ xs, ∃ e ∈ x.chain, e.nextByte = b := by
  have hacc : ∀ obs : List UInt8, b ∈ xs.foldl (fun obs x => observe obs x.chain) obs ↔
      b ∈ obs ∨ ∃ x ∈ xs, ∃ e ∈ x.chain, e.nextByte = b := by
    intro obs
    induction xs generalizing obs with
    | nil => simp
    | cons x xs ih =>
      rw [List.foldl_cons, ih, mem_observe, or_assoc]
      simp
  simpa [observedIn] using hacc []

theorem observedIn_length (xs : List Active) : (observedIn xs).length ≤ 256 := by
  have hnodup : ∀ obs : List UInt8, obs.Nodup →
      (xs.foldl (fun obs x => observe obs x.chain) obs).Nodup := by
    induction xs with
    | nil => exact fun obs h => h
    | cons x xs ih => exact fun obs h => ih _ (nodup_observe h x.chain)
  have hmap : ((observedIn xs).map UInt8.toNat).Nodup :=
    (hnodup [] List.nodup_nil).map fun a b h => UInt8.toNat_inj.1 h
  have hsub : (observedIn xs).map UInt8.toNat ⊆ List.range 256 := by
    intro i hi
    obtain ⟨b, -, rfl⟩ := List.mem_map.1 hi
    exact List.mem_range.2 b.toNat_lt
  have hle := (hmap.subperm hsub).length_le
  rwa [List.length_map, List.length_range] at hle

end Bcb.Bt
