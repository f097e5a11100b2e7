import Bcb.Lib.Probe
import Mathlib.Data.Fintype.Card
import Mathlib.Data.Fintype.EquivFin
import Mathlib.Data.Nat.ModEq
import Mathlib.Logic.Function.Basic

/-! Open addressing: the slots name entries that were put in one after the other, each at
the first free slot from its home on. -/

namespace Bcb.Lib.OpenAddr

open Probe

/-- The slots hold the entries `0 .. n-1`, entry `i` at `dist i` steps from its home. -/
structure Filled (N : Nat) (slot : Nat → Option Nat) (home dist : Nat → Nat) (n : Nat) :
    Prop where
  home_lt : ∀ i < n, home i < N
  dist_lt : ∀ i < n, dist i < N
  placed : ∀ i < n, slot ((linear N)^[dist i] (home i)) = some i
  path : ∀ i < n, ∀ k < dist i, slot ((linear N)^[k] (home i)) ≠ none
  only : ∀ s < N, ∀ i, slot s = some i → i < n ∧ (linear N)^[dist i] (home i) = s
  order : ∀ i j, i < j → j < n → home i = home j → dist i < dist j

variable {N n : Nat} {slot : Nat → Option Nat} {home dist : Nat → Nat}

theorem linear_iterate_inj {i a b : Nat} (hi : i < N) (ha : a < N) (hb : b < N)
    (h : (linear N)^[a] i = (linear N)^[b] i) : a = b := by
  rw [linear_iterate hi, linear_iterate hi] at h
  have hmod : a ≡ b [MOD N] := Nat.ModEq.add_left_cancel' i h
  exact Nat.ModEq.eq_of_lt_of_lt hmod ha hb

namespace Filled

theorem empty (N : Nat) (home dist : Nat → Nat) : Filled N (fun _ => none) home dist 0 where
  home_lt i hi := absurd hi (Nat.not_lt_zero i)
  dist_lt i hi := absurd hi (Nat.not_lt_zero i)
  placed i hi := absurd hi (Nat.not_lt_zero i)
  path i hi := absurd hi (Nat.not_lt_zero i)
  only _ _ _ hi := nomatch hi
  order _ j _ hj := absurd hj (Nat.not_lt_zero j)

theorem congr_home (h : Filled N slot home dist n) {home' : Nat → Nat}
    (heq : ∀ i < n, home' i = home i) : Filled N slot home' dist n where
  home_lt i hi := heq i hi ▸ h.home_lt i hi
  dist_lt := h.dist_lt
  placed i hi := heq i hi ▸ h.placed i hi
  path i hi := heq i hi ▸ h.path i hi
  only s hs i hi := by
    obtain ⟨hlt, hplace⟩ := h.only s hs i hi
    exact ⟨hlt, (heq i hlt).symm ▸ hplace⟩
  order i j hij hj hsame := by
    rw [heq i (hij.trans hj), heq j hj] at hsame
    exact h.order i j hij hj hsame

theorem exists_free (h : Filled N slot home dist n) (hn : n < N) : ∃ s < N, slot s = none := by
  by_contra hall
  push Not at hall
  have hidx : ∀ s : Fin N, ∃ i, slot s = some i := by
    intro s
    cases hs : slot s with
    | none => exact absurd hs (hall s s.isLt)
    | some i => exact ⟨i, rfl⟩
  choose f hf using hidx
  let g : Fin N → Fin n := fun s => ⟨f s, (h.only s s.isLt (f s) (hf s)).1⟩
  have hinj : Function.Injective g := by
    intro s t hst
    have hval : f s = f t := congrArg Fin.val hst
    have hs := (h.only s s.isLt (f s) (hf s)).2
    have ht := (h.only t t.isLt (f t) (hf t)).2
    rw [hval, ht] at hs
    exact Fin.ext hs.symm
  have hcard := Fintype.card_le_of_injective g hinj
  simp only [Fintype.card_fin] at hcard
  omega

theorem free (h : Filled N slot home dist n) (hn : n < N) {h0 : Nat} (hh0 : h0 < N) :
    ∃ d < N, slot ((linear N)^[d] h0) = none ∧ ∀ k < d, slot ((linear N)^[k] h0) ≠ none := by
  obtain ⟨s, hs, hfree⟩ := h.exists_free hn
  obtain ⟨k, hk, rfl⟩ := linear_reaches hh0 hs
  have hex : ∃ d, slot ((linear N)^[d] h0) = none := ⟨k, hfree⟩
  classical
  refine ⟨Nat.find hex, lt_of_le_of_lt (Nat.find_min' hex hfree) hk, Nat.find_spec hex, ?_⟩
  intro j hj
  exact Nat.find_min hex hj

theorem insert (h : Filled N slot home dist n) (hhome : home n < N) {d : Nat} (hd : d < N)
    (hfree : slot ((linear N)^[d] (home n)) = none)
    (hpath : ∀ k < d, slot ((linear N)^[k] (home n)) ≠ none) :
    Filled N (Function.update slot ((linear N)^[d] (home n)) (some n)) home
      (Function.update dist n d) (n + 1) := by
  have hold : ∀ i < n, Function.update dist n d i = dist i := fun i hi =>
    Function.update_of_ne hi.ne d dist
  have hnew : Function.update dist n d n = d := Function.update_self n d dist
  have hkeep : ∀ s, slot s ≠ none →
      Function.update slot ((linear N)^[d] (home n)) (some n) s = slot s := by
    intro s hs
    apply Function.update_of_ne
    rintro rfl
    exact hs hfree
  have hsome : ∀ s, slot s ≠ none →
      Function.update slot ((linear N)^[d] (home n)) (some n) s ≠ none := by
    intro s hs
    rwa [hkeep s hs]
  refine ⟨?_, ?_, ?_, ?_, ?_, ?_⟩
  · intro i hi
    rcases Nat.lt_succ_iff_lt_or_eq.1 hi with hi | rfl
    · exact h.home_lt i hi
    · exact hhome
  · intro i hi
    rcases Nat.lt_succ_iff_lt_or_eq.1 hi with hi | rfl
    · rw [hold i hi]
      exact h.dist_lt i hi
    · rwa [hnew]
  · intro i hi
    rcases Nat.lt_succ_iff_lt_or_eq.1 hi with hi | rfl
    · have hplaced := h.placed i hi
      rw [hold i hi, hkeep _ (by rw [hplaced]; exact Option.some_ne_none i), hplaced]
    · rw [hnew, Function.update_self]
  · intro i hi k hk
    rcases Nat.lt_succ_iff_lt_or_eq.1 hi with hi | rfl
    · rw [hold i hi] at hk
      exact hsome _ (h.path i hi k hk)
    · rw [hnew] at hk
      exact hsome _ (hpath k hk)
  · intro s hs i hi
    by_cases hslot : s = (linear N)^[d] (home n)
    · rw [hslot, Function.update_self] at hi
      obtain rfl := Option.some.inj hi
      exact ⟨Nat.lt_succ_self _, by rw [hnew, hslot]⟩
    · rw [Function.update_of_ne hslot] at hi
      obtain ⟨hlt, heq⟩ := h.only s hs i hi
      exact ⟨Nat.lt_succ_of_lt hlt, by rw [hold i hlt, heq]⟩
  · intro i j hij hj hsame
    rcases Nat.lt_succ_iff_lt_or_eq.1 hj with hj | rfl
    · rw [hold i (hij.trans hj), hold j hj]
      exact h.order i j hij hj hsame
    · -- the new entry went past every entry with its home
      rw [hold i hij, hnew]
      have hplaced := h.placed i hij
      by_contra hle
      rw [hsame] at hplaced
      rcases Nat.lt_or_eq_of_le (Nat.le_of_not_lt hle) with hlt | heq
      · have hpath := h.path i hij d hlt
        rw [hsame] at hpath
        exact hpath hfree
      · rw [← heq, hfree] at hplaced
        cases hplaced

theorem other_of_ne {p : Nat → Prop} (h : Filled N slot home dist n) (hp : ∀ i < n, ¬ p i) {s : Nat}
    (hs : s < N) (hslot : slot s ≠ none) : ∃ j, slot s = some j ∧ j < n ∧ ¬ p j := by
  obtain ⟨j, hj⟩ := Option.ne_none_iff_exists'.1 hslot
  have hjn := (h.only s hs j hj).1
  exact ⟨j, hj, hjn, hp j hjn⟩

/-- A probe from the home of the wanted entries meets other entries only, up to the first
wanted one. -/
theorem first {p : Nat → Prop} {h0 : Nat} (h : Filled N slot home dist n) (hh0 : h0 < N)
    (hhome : ∀ i < n, p i → home i = h0) (hex : ∃ i < n, p i) :
    ∃ i < n, p i ∧ (∀ j < i, ¬ p j) ∧ ∃ d < N, slot ((linear N)^[d] h0) = some i ∧
      ∀ k < d, ∃ j, slot ((linear N)^[k] h0) = some j ∧ j < n ∧ ¬ p j := by
  classical
  let i := Nat.find hex
  obtain ⟨hin, hip⟩ : i < n ∧ p i := Nat.find_spec hex
  have hmin : ∀ j < i, ¬ p j := fun j hj hp => Nat.find_min hex hj ⟨hj.trans hin, hp⟩
  have hhi := hhome i hin hip
  refine ⟨i, hin, hip, hmin, dist i, h.dist_lt i hin, hhi ▸ h.placed i hin, ?_⟩
  intro k hk
  obtain ⟨j, hj⟩ := Option.ne_none_iff_exists'.1 (hhi ▸ h.path i hin k hk)
  obtain ⟨hjn, hplace⟩ := h.only _ (linear_iterate_lt hh0 k) j hj
  refine ⟨j, hj, hjn, fun hjp => ?_⟩
  rw [hhome j hjn hjp] at hplace
  have hkj := linear_iterate_inj hh0 (h.dist_lt j hjn) (hk.trans (h.dist_lt i hin)) hplace
  rcases Nat.lt_trichotomy i j with hlt | heq | hlt
  · have hord := h.order i j hlt hjn (hhi.trans (hhome j hjn hjp).symm)
    omega
  · rw [← heq] at hkj
    omega
  · exact hmin j hlt hjp

theorem find {ε κ : Type} [DecidableEq κ] {key : Nat → κ} {c : κ} {h0 : Nat} {stuck : ε}
    {test : Nat → Except ε (Option (Option Nat))}
    (h : Filled N slot home dist n) (hn : n < N) (hh0 : h0 < N)
    (hhome : ∀ i < n, key i = c → home i = h0)
    (hfree : ∀ s < N, slot s = none → test s = .ok (some none))
    (hother : ∀ s < N, ∀ i < n, slot s = some i → key i ≠ c → test s = .ok none)
    (hmatch : ∀ s < N, ∀ i < n, slot s = some i → key i = c → test s = .ok (some (some i))) :
    run stuck (linear N) test N h0 = .ok ((List.range n).find? (fun i => key i = c)) := by
  have hskip : ∀ k, (∃ j, slot ((linear N)^[k] h0) = some j ∧ j < n ∧ key j ≠ c) →
      test ((linear N)^[k] h0) = .ok none := by
    rintro k ⟨j, hj, hjn, hne⟩
    exact hother _ (linear_iterate_lt hh0 k) j hjn hj hne
  by_cases hex : ∃ i < n, key i = c
  · obtain ⟨i, hi, hic, hmin, d, hd, hslot, hpath⟩ := h.first hh0 hhome hex
    have hfind : (List.range n).find? (fun i => key i = c) = some i :=
      List.find?_range_eq_some.2 ⟨decide_eq_true hic, List.mem_range.2 hi,
        fun j hj => by simp [hmin j hj]⟩
    rw [hfind]
    apply run_first hd (fun k hk => hskip k (hpath k hk))
    exact hmatch _ (linear_iterate_lt hh0 d) i hi hslot hic
  · have hne : ∀ i < n, ¬ key i = c := fun i hi hic => hex ⟨i, hi, hic⟩
    have hfind : (List.range n).find? (fun i => key i = c) = none :=
      List.find?_eq_none.2 fun i hi => by simp [hne i (List.mem_range.1 hi)]
    obtain ⟨d, hd, hnone, hpath⟩ := h.free hn hh0
    rw [hfind]
    apply run_first hd
    · exact fun k hk => hskip k (h.other_of_ne hne (linear_iterate_lt hh0 k) (hpath k hk))
    · exact hfree _ (linear_iterate_lt hh0 d) hnone

theorem exists_place (h : Filled N slot home dist n) :
    ∃ place : Fin n → Fin N, Function.Injective place ∧ ∀ i, slot (place i) = some i.val := by
  let place : Fin n → Fin N := fun i =>
    ⟨(linear N)^[dist i] (home i), linear_iterate_lt (h.home_lt i i.isLt) _⟩
  have hplaced : ∀ i, slot (place i) = some i.val := fun i => h.placed i i.isLt
  refine ⟨place, ?_, hplaced⟩
  intro i j hij
  have hi := hplaced i
  rw [hij, hplaced j] at hi
  exact (Fin.ext (Option.some.inj hi)).symm

theorem le (h : Filled N slot home dist n) : n ≤ N := by
  obtain ⟨place, hinj, -⟩ := h.exists_place
  have hcard := Fintype.card_le_of_injective place hinj
  rwa [Fintype.card_fin, Fintype.card_fin] at hcard

theorem full (h : Filled N slot home dist N) {s : Nat} (hs : s < N) : slot s ≠ none := by
  obtain ⟨place, hinj, hplaced⟩ := h.exists_place
  obtain ⟨i, hi⟩ := Finite.surjective_of_injective hinj ⟨s, hs⟩
  have hslot := hplaced i
  rw [hi] at hslot
  rw [hslot]
  exact Option.some_ne_none _

end Filled

end Bcb.Lib.OpenAddr
