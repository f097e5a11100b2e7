import Bcb.Bt.Distribution
import Bcb.RangeCoder.Encoder
import Mathlib.Algebra.BigOperators.Group.Finset.Basic
import Mathlib.Algebra.Order.BigOperators.Group.Finset
import Mathlib.Algebra.Order.BigOperators.Group.List
import Mathlib.Tactic.Linarith

namespace Bcb.Bt

open RangeCoder

/-- The sum of the first `n` widths. -/
def widthSum (w : UInt8 → Nat) (n : Nat) : Nat := ∑ b ∈ Finset.range n, w (UInt8.ofNat b)

theorem widthSum_succ (w : UInt8 → Nat) (n : Nat) :
    widthSum w (n + 1) = widthSum w n + w (UInt8.ofNat n) := Finset.sum_range_succ _ _

theorem widthSum_mono (w : UInt8 → Nat) {m n : Nat} (h : m ≤ n) : widthSum w m ≤ widthSum w n :=
  Finset.sum_le_sum_of_subset (Finset.range_subset_range.2 h)

theorem widthSum_update (w : UInt8 → Nat) (i : UInt8) (x : Nat) :
    widthSum (Function.update w i x) 256 + w i = widthSum w 256 + x := by
  have hmem : i.toNat ∈ Finset.range 256 := Finset.mem_range.2 i.toNat_lt
  have hrest : ∑ b ∈ (Finset.range 256).erase i.toNat, Function.update w i x (UInt8.ofNat b) =
      ∑ b ∈ (Finset.range 256).erase i.toNat, w (UInt8.ofNat b) := by
    apply Finset.sum_congr rfl
    intro b hb
    obtain ⟨hne, hlt⟩ := Finset.mem_erase.1 hb
    apply Function.update_of_ne
    rintro rfl
    exact hne (Nat.mod_eq_of_lt (Finset.mem_range.1 hlt)).symm
  have hself : UInt8.ofNat i.toNat = i := UInt8.ofNat_toNat
  rw [widthSum, widthSum, ← Finset.add_sum_erase _ _ hmem, ← Finset.add_sum_erase _ _ hmem, hrest,
    hself, Function.update_self]
  omega

theorem le_widthSum (w : UInt8 → Nat) (i : UInt8) : w i ≤ widthSum w 256 := by
  have hmem : i.toNat ∈ Finset.range 256 := Finset.mem_range.2 i.toNat_lt
  have hself : UInt8.ofNat i.toNat = i := UInt8.ofNat_toNat
  have hle := Finset.single_le_sum (f := fun b => w (UInt8.ofNat b)) (fun b _ => Nat.zero_le _) hmem
  rwa [hself] at hle

theorem cumOf_eq {w : UInt8 → Nat} {n : Nat} (h : widthSum w n < 2 ^ 32) :
    cumOf w n = widthSum w n := by
  induction n with
  | zero => rfl
  | succ n ih =>
    have hle := widthSum_mono w (Nat.le_succ n)
    rw [cumOf, ih (hle.trans_lt h), ← widthSum_succ]
    exact Nat.mod_eq_of_lt h

theorem cumOf_step {w : UInt8 → Nat} (hsum : widthSum w 256 < 2 ^ 32) {n : Nat} (hn : n < 256) :
    cumOf w (n + 1) = cumOf w n + w (UInt8.ofNat n) := by
  have hle := widthSum_mono w (Nat.succ_le_of_lt hn)
  rw [cumOf_eq (hle.trans_lt hsum), widthSum_succ,
    cumOf_eq (((widthSum_mono w (Nat.le_succ n)).trans hle).trans_lt hsum)]

theorem cumOf_codable {w : UInt8 → Nat} (hpos : ∀ b, 0 < w b) (hsum : widthSum w 256 ≤ 2 ^ 14) :
    (cumOf w).Codable := by
  have hfits : widthSum w 256 < 2 ^ 32 := hsum.trans_lt (by norm_num)
  refine ⟨rfl, ?_, ?_⟩
  · intro b hb
    rw [cumOf_step hfits hb]
    exact Nat.lt_add_of_pos_right (hpos _)
  · rw [cumOf_eq hfits]
    exact hsum

/-- A table that gives each byte at least 3 of the scale, and leaves 52 of it. -/
structure Ample (cum : Cum) : Prop where
  zero : cum 0 = 0
  width : ∀ b < 256, cum b + 3 ≤ cum (b + 1)
  total : cum 256 ≤ 16332

theorem Ample.codable {cum : Cum} (h : Ample cum) : cum.Codable where
  zero := h.zero
  strict b hb := lt_of_lt_of_le (Nat.lt_add_of_pos_right (by decide)) (h.width b hb)
  total := h.total.trans (by norm_num)

theorem clampProb_mem {s : Int × Int} {q : Int} (h : clampProb s = .ok q) :
    1 ≤ q ∧ q ≤ 2 ^ 28 := by
  obtain ⟨prob, -, h⟩ := bind_eq_ok.1 h
  obtain rfl := Except.ok.inj h
  simp only [pscale]
  omega

@[simp] theorem allBytes_length : allBytes.length = 256 := by simp [allBytes]

theorem probs_spec {B : Build} {luts : Bool} {r : BtV3Reader} {ps : List Int}
    (h : probs B luts r = .ok ps) : ps.length = 256 ∧ ∀ q ∈ ps, 1 ≤ q ∧ q ≤ 2 ^ 28 := by
  simp only [probs] at h
  split_ifs at h
  · obtain rfl := Except.ok.inj h
    refine ⟨by rw [List.length_map, allBytes_length], ?_⟩
    intro q hq
    obtain ⟨_, -, rfl⟩ := List.mem_map.1 hq
    simp [pscale]
  · obtain ⟨s, -, h⟩ := bind_eq_ok.1 h
    refine ⟨(mapM_length h).trans allBytes_length, ?_⟩
    exact mapM_forall h fun _ _ _ hq => clampProb_mem hq

theorem sumM_eq {ps : List Int} {s0 s : Int}
    (h : ps.foldlM (fun s q => i64 (s + q)) s0 = .ok s) : s = s0 + ps.sum := by
  induction ps generalizing s0 with
  | nil =>
    obtain rfl := Except.ok.inj h
    simp
  | cons q ps ih =>
    obtain ⟨s1, hs1, h⟩ := bind_eq_ok.1 h
    obtain ⟨rfl, -⟩ := i64_eq_ok hs1
    rw [ih h, List.sum_cons, Int.add_assoc]

/-- A width is 3 more than the share of `950 / 1000` of the scale. -/
theorem scaleProb_spec {s q : Int} {w : Nat} (hq : 1 ≤ q) (hs : q ≤ s)
    (h : scaleProb rcScale s q = .ok w) : 3 ≤ w ∧ (w - 3) * (1000 * s) ≤ 950 * 2 ^ 14 * q := by
  obtain ⟨k, hk, h⟩ := bind_eq_ok.1 h
  obtain ⟨rfl, -⟩ := i64_eq_ok hk
  obtain ⟨num, hnum, h⟩ := bind_eq_ok.1 h
  obtain ⟨rfl, -⟩ := i64_eq_ok hnum
  obtain ⟨t, ht, h⟩ := bind_eq_ok.1 h
  obtain ⟨rfl, -⟩ := i64_eq_ok ht
  obtain ⟨v, hv, h⟩ := bind_eq_ok.1 h
  have hpos : (0 : Int) < 1000 * s := by omega
  rw [i64Div_of_pos (by simp only [rcScale]; omega) hpos] at hv
  obtain rfl := Except.ok.inj hv
  obtain ⟨u, hu, h⟩ := bind_eq_ok.1 h
  obtain ⟨rfl, -⟩ := i64_eq_ok hu
  have hw := Except.ok.inj h
  simp only [rcScale] at hw ⊢
  have hnum0 : (0 : Int) ≤ 950 * ((2 ^ 14 : Nat) : Int) * q := by omega
  have hmul := Int.ediv_mul_le (950 * ((2 ^ 14 : Nat) : Int) * q) hpos.ne'
  have h0 : 0 ≤ 950 * ((2 ^ 14 : Nat) : Int) * q / (1000 * s) := Int.ediv_nonneg hnum0 hpos.le
  have hlt : 950 * ((2 ^ 14 : Nat) : Int) * q / (1000 * s) ≤ 950 * 2 ^ 14 := by
    apply Int.ediv_le_of_le_mul hpos
    push_cast
    nlinarith
  generalize 950 * ((2 ^ 14 : Nat) : Int) * q / (1000 * s) = x at *
  have hwx : (w : Int) = x + 3 := by omega
  refine ⟨by omega, ?_⟩
  rw [hwx, add_sub_cancel_right]
  push_cast at hmul
  linarith

theorem scaleProb_sum {s : Int} {ps : List Int} {ws : List Nat}
    (hps : ∀ q ∈ ps, 1 ≤ q ∧ q ≤ s) (h : ps.mapM (scaleProb rcScale s) = .ok ws) :
    (∀ w ∈ ws, 3 ≤ w) ∧
      ((ws.sum : Int) - 3 * ps.length) * (1000 * s) ≤ 950 * 2 ^ 14 * ps.sum := by
  induction ps generalizing ws with
  | nil =>
    obtain rfl := Except.ok.inj h
    simp
  | cons q ps ih =>
    obtain ⟨w, u, hw, hu, rfl⟩ := mapM_cons_ok h
    obtain ⟨hq, hqs⟩ := hps q List.mem_cons_self
    obtain ⟨hw3, hwle⟩ := scaleProb_spec hq hqs hw
    obtain ⟨hu3, hule⟩ := ih (fun x hx => hps x (List.mem_cons_of_mem q hx)) hu
    refine ⟨?_, ?_⟩
    · intro x hx
      rcases List.mem_cons.1 hx with rfl | hx
      · exact hw3
      · exact hu3 x hx
    · simp only [List.sum_cons, List.length_cons, Nat.cast_add, Nat.cast_one]
      linarith

theorem le_sum_of_mem {ps : List Int} (hps : ∀ q ∈ ps, 1 ≤ q) {q : Int} (hq : q ∈ ps) :
    q ≤ ps.sum := List.single_le_sum (fun x hx => zero_le_one.trans (hps x hx)) q hq

theorem sum_getD (l : List Nat) (n : Nat) :
    ∑ i ∈ Finset.range n, l.getD i 0 = (l.take n).sum := by
  induction n with
  | zero => simp
  | succ n ih =>
    rw [Finset.sum_range_succ, ih, List.take_add_one, List.sum_append,
      List.getD_eq_getElem?_getD]
    cases l[n]? <;> simp

theorem widthSum_getD (ws : List Nat) (h : ws.length = 256) :
    widthSum (fun b => ws.getD b.toNat 0) 256 = ws.sum := by
  calc widthSum (fun b => ws.getD b.toNat 0) 256
      = ∑ i ∈ Finset.range 256, ws.getD i 0 := by
        apply Finset.sum_congr rfl
        intro i hi
        have hbyte : (UInt8.ofNat i).toNat = i := Nat.mod_eq_of_lt (Finset.mem_range.1 hi)
        change ws.getD (UInt8.ofNat i).toNat 0 = _
        rw [hbyte]
    _ = (ws.take 256).sum := sum_getD ws 256
    _ = ws.sum := by rw [← h, List.take_length]

theorem btV3DistributionR_ample {B : Build} {luts : Bool} {r : BtV3Reader} {cum : Cum}
    (h : btV3DistributionR B luts r rcScale = .ok cum) : Ample cum := by
  obtain ⟨ps, hprobs, h⟩ := bind_eq_ok.1 h
  obtain ⟨hlen, hps⟩ := probs_spec hprobs
  obtain ⟨s, hs, h⟩ := bind_eq_ok.1 h
  obtain rfl : s = ps.sum := by rw [sumM_eq hs, zero_add]
  have hle : ∀ q ∈ ps, q ≤ ps.sum := fun q hq => le_sum_of_mem (fun x hx => (hps x hx).1) hq
  have hpos : 0 < ps.sum := by
    obtain ⟨q, hq⟩ := List.exists_mem_of_length_pos (hlen ▸ (by norm_num : 0 < 256))
    have hq1 := (hps q hq).1
    have hqs := hle q hq
    omega
  rw [if_neg (by omega)] at h
  obtain ⟨ws, hws, h⟩ := bind_eq_ok.1 h
  obtain rfl := Except.ok.inj h
  have hwlen : ws.length = 256 := (mapM_length hws).trans hlen
  obtain ⟨hw3, hsum⟩ := scaleProb_sum (fun q hq => ⟨(hps q hq).1, hle q hq⟩) hws
  have htotal : widthSum (fun b => ws.getD b.toNat 0) 256 ≤ 16332 := by
    rw [widthSum_getD ws hwlen]
    rw [hlen] at hsum
    have hcancel : ((ws.sum : Int) - 3 * 256) * 1000 ≤ 950 * 2 ^ 14 := by
      apply le_of_mul_le_mul_right _ hpos
      simp only [Nat.cast_ofNat] at hsum
      linarith
    omega
  have hfits : widthSum (fun b => ws.getD b.toNat 0) 256 < 2 ^ 32 := htotal.trans_lt (by norm_num)
  refine ⟨rfl, ?_, ?_⟩
  · intro b hb
    rw [cumOf_step hfits hb]
    apply Nat.add_le_add_left
    have hmem : ws.getD (UInt8.ofNat b).toNat 0 ∈ ws := by
      have hlt := (UInt8.ofNat b).toNat_lt
      rw [List.getD_eq_getElem _ _ (by omega)]
      exact List.getElem_mem _
    exact hw3 _ hmem
  · rw [cumOf_eq hfits]
    exact htotal

theorem btV3DistributionR_codable {B : Build} {luts : Bool} {r : BtV3Reader} {cum : Cum}
    (h : btV3DistributionR B luts r rcScale = .ok cum) : cum.Codable :=
  (btV3DistributionR_ample h).codable

end Bcb.Bt
