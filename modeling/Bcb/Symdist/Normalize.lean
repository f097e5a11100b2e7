import Bcb.Bt.Widths
import Bcb.Words
import Mathlib.Algebra.BigOperators.Ring.Finset
import Mathlib.Algebra.Group.Action.Defs

namespace Bcb.Symdist

open RangeCoder Bt

/-- `w[b]`, equal for all bytes where the table is empty. -/
def widthsOf (W : Words) (cum : Cum) (scale : Nat) : Outcome (UInt8 → Nat) :=
  if cum 256 = 0 then pure fun _ => if scale / 256 = 0 then 1 else scale / 256
  else forBytes fun b => W.sub32 (cum (b.toNat + 1)) (cum b.toNat)

/-- `nw`. -/
def requantise (W : Words) (total scale w : Nat) : Outcome Nat := do
  let nw ← if total = 0 then pure w else (· / total) <$> W.u64 (w * scale)
  return if nw < 1 then 1 else nw

def sumBytes (add : Nat → Outcome Nat) (w : UInt8 → Nat) : Outcome Nat :=
  (List.range 256).foldlM (fun sum b => add (sum + w (UInt8.ofNat b))) 0

/-- The first of the largest widths. -/
def largest (w : UInt8 → Nat) : UInt8 :=
  (List.range' 1 255).foldl (fun i b => if w i < w (UInt8.ofNat b) then UInt8.ofNat b else i) 0

/-- `while (excess > 0)`. -/
def trim (W : Words) : Nat → (UInt8 → Nat) → Nat → Outcome ((UInt8 → Nat) × Nat)
  | 0, _, _ => throw .diverge
  | n + 1, w, excess =>
    if 0 < excess then do
      let idx := largest w
      let take ← W.sub32 (w idx) 1
      let take := if excess < take then excess else take
      if take = 0 then return (w, excess)
      else trim W n (Function.update w idx (← W.sub32 (w idx) take)) (← W.sub32 excess take)
    else return (w, excess)

/-- `if (sum != scale)`. -/
def correct (W : Words) (scale sum : Nat) (w : UInt8 → Nat) : Outcome (UInt8 → Nat) :=
  if sum = scale then pure w
  else if sum < scale then do
    let big := largest w
    let d ← W.u32 (← W.sub64 scale sum)
    return Function.update w big (← W.u32 (w big + d))
  else do
    let excess ← W.u32 (← W.sub64 sum scale)
    let (w, _) ← trim W 257 w excess
    return w

/-- `cum[b] = acc; acc += w[b]` for every byte, and `cum[256] = acc`. -/
def accumulate (store add : Nat → Outcome Nat) (cum : Cum) (w : UInt8 → Nat) : Outcome Cum := do
  let (cum, acc) ← (List.range 256).foldlM (fun (x : Cum × Nat) b => do
    return (Function.update x.1 b (← store x.2), ← add (x.2 + w (UInt8.ofNat b)))) (cum, 0)
  return Function.update cum 256 (← store acc)

def symdistNormalize (W : Words) (cum : Cum) (scale : Nat) : Outcome Cum := do
  let w ← widthsOf W cum scale
  let nw ← forBytes fun b => requantise W (cum 256) scale (w b)
  let sum ← sumBytes W.u64 nw
  let w ← forBytes fun b => W.u32 (nw b)
  let w ← correct W scale sum w
  accumulate pure W.u32 cum w

variable {W : Words} {w : UInt8 → Nat} {cum : Cum} {scale excess n : Nat} {i : UInt8}

/-! ## Sums of widths -/

theorem widthSum_diff (h0 : cum 0 = 0) (hmono : ∀ i < 256, cum i ≤ cum (i + 1)) (hn : n ≤ 256) :
    widthSum (fun b => cum (b.toNat + 1) - cum b.toNat) n = cum n := by
  induction n with
  | zero => exact h0.symm
  | succ n ih =>
    have hbyte : (UInt8.ofNat n).toNat = n := Nat.mod_eq_of_lt (by omega)
    rw [widthSum_succ, ih (by omega), hbyte]
    exact Nat.add_sub_cancel' (hmono n (by omega))

theorem sumBytes_ok {add : Nat → Outcome Nat} (h : ∀ x ≤ widthSum w 256, add x = .ok x) :
    sumBytes add w = .ok (widthSum w 256) := by
  have hrun : ∀ n ≤ 256, (List.range n).foldlM
      (fun sum b => add (sum + w (UInt8.ofNat b))) 0 = .ok (widthSum w n) := by
    intro n hn
    induction n with
    | zero => rfl
    | succ n ih =>
      rw [List.range_succ, List.foldlM_append, ih (by omega), ok_bind, List.foldlM_cons,
        ← widthSum_succ, h _ (widthSum_mono w hn)]
      rfl
  exact hrun 256 le_rfl

theorem update_fill (f g : Nat → Nat) (n : Nat) :
    Function.update (fun i => if i < n then f i else g i) n (f n) =
      fun i => if i < n + 1 then f i else g i := by
  funext i
  rw [Function.update_apply]
  rcases Nat.lt_trichotomy i n with h | rfl | h
  · rw [if_neg h.ne, if_pos h, if_pos (by omega)]
  · rw [if_pos rfl, if_pos (Nat.lt_succ_self i)]
  · rw [if_neg h.ne', if_neg (by omega), if_neg (by omega)]

theorem accumulate_ok {store add : Nat → Outcome Nat}
    (hstore : ∀ x ≤ widthSum w 256, store x = .ok x)
    (hadd : ∀ x ≤ widthSum w 256, add x = .ok x) :
    accumulate store add cum w = .ok fun i => if i < 257 then widthSum w i else cum i := by
  have hrun : ∀ n ≤ 256, (List.range n).foldlM (fun (x : Cum × Nat) b => do
      return (Function.update x.1 b (← store x.2), ← add (x.2 + w (UInt8.ofNat b)))) (cum, 0) =
        .ok (fun i => if i < n then widthSum w i else cum i, widthSum w n) := by
    intro n hn
    induction n with
    | zero => rfl
    | succ n ih =>
      rw [List.range_succ, List.foldlM_append, ih (by omega), ok_bind, List.foldlM_cons,
        ← widthSum_succ, hstore _ (widthSum_mono w (by omega)), hadd _ (widthSum_mono w hn)]
      exact congrArg Except.ok (Prod.ext (update_fill (widthSum w) cum n) rfl)
  rw [accumulate, hrun 256 le_rfl, ok_bind]
  dsimp only
  rw [hstore _ le_rfl]
  exact congrArg Except.ok (update_fill (widthSum w) cum 256)

/-! ## The largest width -/

theorem largest_foldl (w : UInt8 → Nat) (l : List Nat) (i : UInt8) :
    w i ≤ w (l.foldl (fun i b => if w i < w (UInt8.ofNat b) then UInt8.ofNat b else i) i) ∧
      ∀ b ∈ l, w (UInt8.ofNat b) ≤
        w (l.foldl (fun i b => if w i < w (UInt8.ofNat b) then UInt8.ofNat b else i) i) := by
  induction l generalizing i with
  | nil => exact ⟨le_rfl, fun b hb => by cases hb⟩
  | cons x l ih =>
    rw [List.foldl_cons]
    obtain ⟨hle, hmem⟩ := ih (if w i < w (UInt8.ofNat x) then UInt8.ofNat x else i)
    have hboth : w i ≤ w (if w i < w (UInt8.ofNat x) then UInt8.ofNat x else i) ∧
        w (UInt8.ofNat x) ≤ w (if w i < w (UInt8.ofNat x) then UInt8.ofNat x else i) := by
      split_ifs with hlt
      · exact ⟨hlt.le, le_rfl⟩
      · exact ⟨le_rfl, Nat.le_of_not_lt hlt⟩
    refine ⟨hboth.1.trans hle, fun b hb => ?_⟩
    rcases List.mem_cons.1 hb with rfl | hb
    · exact hboth.2.trans hle
    · exact hmem b hb

theorem le_largest (w : UInt8 → Nat) (b : UInt8) : w b ≤ w (largest w) := by
  obtain ⟨h0, hmem⟩ := largest_foldl w (List.range' 1 255) 0
  have hb : UInt8.ofNat b.toNat = b := UInt8.ofNat_toNat
  rcases Nat.eq_zero_or_pos b.toNat with hz | hpos
  · have hb0 : b = 0 := by
      rw [← hb, hz]
      rfl
    rw [hb0]
    exact h0
  · have hle := hmem b.toNat (List.mem_range'_1.2 ⟨hpos, by have := b.toNat_lt; omega⟩)
    rwa [hb] at hle

theorem one_lt_largest (h : 256 < widthSum w 256) : 1 < w (largest w) := by
  by_contra hle
  have hone : widthSum w 256 ≤ 256 := by
    calc widthSum w 256 ≤ ∑ _b ∈ Finset.range 256, 1 :=
          Finset.sum_le_sum fun b _ => (le_largest w _).trans (Nat.le_of_not_lt hle)
      _ = 256 := by simp
  omega

/-! ## The loop that takes the excess -/

/-- The bytes whose width can still be reduced. -/
def wide (w : UInt8 → Nat) : Finset Nat := (Finset.range 256).filter fun b => 1 < w (UInt8.ofNat b)

theorem wide_card_le (w : UInt8 → Nat) : (wide w).card ≤ 256 := by
  refine (Finset.card_filter_le _ _).trans ?_
  rw [Finset.card_range]

@[simp] theorem toNat_mem_wide : i.toNat ∈ wide w ↔ 1 < w i := by
  have hself : UInt8.ofNat i.toNat = i := UInt8.ofNat_toNat
  rw [wide, Finset.mem_filter, hself]
  exact and_iff_right (Finset.mem_range.2 i.toNat_lt)

theorem wide_card_update (h : 1 < w i) : (wide (Function.update w i 1)).card < (wide w).card := by
  apply Finset.card_lt_card
  refine (Finset.ssubset_iff_of_subset ?_).2 ⟨i.toNat, toNat_mem_wide.2 h, ?_⟩
  · intro b hb
    obtain ⟨hlt, hb⟩ := Finset.mem_filter.1 hb
    refine Finset.mem_filter.2 ⟨hlt, ?_⟩
    rw [Function.update_apply] at hb
    split_ifs at hb
    · omega
    · exact hb
  · rw [toNat_mem_wide, Function.update_self]
    exact Nat.lt_irrefl 1

theorem trim_ok (hpos : ∀ b, 1 ≤ w b) (hlt : ∀ b, w b < 2 ^ 32) (hexcess : excess < 2 ^ 32)
    (hscale : 256 ≤ scale) (hsum : widthSum w 256 = scale + excess)
    (hn : excess = 0 ∧ 0 < n ∨ (wide w).card < n) :
    ∃ w', (∀ W, trim W n w excess = .ok (w', 0)) ∧ (∀ b, 1 ≤ w' b) ∧ widthSum w' 256 = scale := by
  induction n generalizing w excess with
  | zero => exact absurd hn (by simp)
  | succ n ih =>
    rcases Nat.eq_zero_or_pos excess with rfl | hex
    · exact ⟨w, fun W => rfl, hpos, hsum⟩
    · have hbig : 1 < w (largest w) := one_lt_largest (by omega)
      obtain ⟨take, htake⟩ : ∃ t, t =
        if excess < w (largest w) - 1 then excess else w (largest w) - 1 := ⟨_, rfl⟩
      have htake0 : take ≠ 0 := by
        rw [htake]
        split_ifs <;> omega
      have hle : take ≤ w (largest w) - 1 := by
        rw [htake]
        split_ifs <;> omega
      have hle' : take ≤ excess := by
        rw [htake]
        split_ifs <;> omega
      have hupdate := widthSum_update w (largest w) (w (largest w) - take)
      have hnew : ∀ b, 1 ≤ Function.update w (largest w) (w (largest w) - take) b ∧
          Function.update w (largest w) (w (largest w) - take) b < 2 ^ 32 := by
        intro b
        have hw := hlt (largest w)
        rw [Function.update_apply]
        split_ifs
        · omega
        · exact ⟨hpos b, hlt b⟩
      have hfuel : excess - take = 0 ∧ 0 < n ∨
          (wide (Function.update w (largest w) (w (largest w) - take))).card < n := by
        have hcard := hn.resolve_left fun h => hex.ne' h.1
        have hone := Finset.card_pos.2 ⟨_, toNat_mem_wide.2 hbig⟩
        by_cases hlast : excess < w (largest w) - 1
        · rw [if_pos hlast] at htake
          exact .inl ⟨by omega, by omega⟩
        · rw [if_neg hlast] at htake
          have hself : w (largest w) - take = 1 := by omega
          have hless := wide_card_update hbig
          rw [hself]
          exact .inr (by omega)
      obtain ⟨w', hrun, hpos', hsum'⟩ := ih (fun b => (hnew b).1) (fun b => (hnew b).2)
        (by omega) (by omega) hfuel
      refine ⟨w', fun W => ?_, hpos', hsum'⟩
      simp only [trim, if_pos hex, W.sub32_of_le hbig.le (hlt _), ok_bind, ← htake, if_neg htake0,
        W.sub32_of_le (hle.trans (Nat.sub_le _ _)) (hlt _), W.sub32_of_le hle' hexcess]
      exact hrun W

theorem correct_ok (hpos : ∀ b, 1 ≤ w b) (hscale : 256 ≤ scale) (hscale' : scale < 2 ^ 32)
    (hsum : widthSum w 256 ≤ scale + 256) (hle : ∀ b, w b ≤ scale) :
    ∃ w', (∀ W, correct W scale (widthSum w 256) w = .ok w') ∧ (∀ b, 1 ≤ w' b) ∧
      widthSum w' 256 = scale ∧ (widthSum w 256 = scale → w' = w) := by
  rcases Nat.lt_trichotomy (widthSum w 256) scale with hlt | heq | hgt
  · -- the largest width takes what is missing
    have hbig : w (largest w) ≤ widthSum w 256 := le_widthSum w _
    have hupdate := widthSum_update w (largest w) (w (largest w) + (scale - widthSum w 256))
    refine ⟨Function.update w (largest w) (w (largest w) + (scale - widthSum w 256)), fun W => ?_,
      fun b => ?_, by omega, fun h => absurd h hlt.ne⟩
    · simp only [correct, if_neg hlt.ne, if_pos hlt, ok_bind,
        W.sub64_of_le hlt.le (hscale'.trans (by norm_num)),
        W.u32_of_lt ((Nat.sub_le _ _).trans_lt hscale'),
        W.u32_of_lt (show w (largest w) + (scale - widthSum w 256) < 2 ^ 32 by omega)]
      rfl
    · rw [Function.update_apply]
      split_ifs
      · exact Nat.le_add_right_of_le (hpos _)
      · exact hpos b
  · exact ⟨w, fun W => if_pos heq, hpos, heq, fun _ => rfl⟩
  · obtain ⟨w', hrun, hpos', hsum'⟩ := trim_ok (n := 257) hpos
      (fun b => (hle b).trans_lt hscale') (show widthSum w 256 - scale < 2 ^ 32 by omega) hscale
      (by omega)
      (.inr (Nat.lt_succ_of_le (wide_card_le w)))
    refine ⟨w', fun W => ?_, hpos', hsum', fun h => absurd h hgt.ne'⟩
    simp only [correct, if_neg hgt.ne', if_neg hgt.not_gt, ok_bind,
      W.sub64_of_le hgt.le (by omega), hrun W,
      W.u32_of_lt (show widthSum w 256 - scale < 2 ^ 32 by omega)]
    rfl

/-! ## Requantising -/

/-- The requantised width, in unbounded arithmetic. -/
def share (total scale w : Nat) : Nat := max 1 (if total = 0 then w else w * scale / total)

theorem requantise_ok (W : Words) {total x : Nat} (hx : x < 2 ^ 32) (hscale : scale < 2 ^ 32) :
    requantise W total scale x = .ok (share total scale x) := by
  have hmul : x * scale < 2 ^ 64 := by
    calc x * scale < 2 ^ 32 * 2 ^ 32 := Nat.mul_lt_mul'' hx hscale
      _ = 2 ^ 64 := by norm_num
  have hmax : ∀ y : Nat, (if y < 1 then 1 else y) = max 1 y := by
    intro y
    split_ifs with h <;> omega
  by_cases htotal : total = 0
  · rw [requantise, share, if_pos htotal, if_pos htotal]
    exact congrArg Except.ok (hmax x)
  · rw [requantise, share, if_neg htotal, if_neg htotal, W.u64_of_lt hmul]
    change (Except.ok (if x * scale / total < 1 then 1 else x * scale / total) : Outcome Nat) = _
    rw [hmax]

theorem share_le {total x : Nat} (hscale : 1 ≤ scale) (hx : x ≤ total) (htotal : total ≠ 0) :
    share total scale x ≤ scale := by
  rw [share, if_neg htotal]
  refine max_le hscale (Nat.div_le_of_le_mul ?_)
  exact Nat.mul_le_mul_right _ hx

/-- Rounding down loses nothing to the total, and raising to 1 adds at most 1 a byte. -/
theorem widthSum_share_le {total : Nat} (htotal : total ≠ 0) (hw : widthSum w 256 = total) :
    widthSum (fun b => share total scale (w b)) 256 ≤ scale + 256 := by
  have hdiv : ∑ b ∈ Finset.range 256, w (UInt8.ofNat b) * scale / total ≤ scale := by
    apply Nat.le_of_mul_le_mul_left _ (Nat.pos_of_ne_zero htotal)
    calc total * ∑ b ∈ Finset.range 256, w (UInt8.ofNat b) * scale / total
        = ∑ b ∈ Finset.range 256, total * (w (UInt8.ofNat b) * scale / total) := Finset.mul_sum ..
      _ ≤ ∑ b ∈ Finset.range 256, w (UInt8.ofNat b) * scale :=
          Finset.sum_le_sum fun b _ => Nat.mul_div_le _ _
      _ = total * scale := by rw [← Finset.sum_mul, ← hw, widthSum]
  calc widthSum (fun b => share total scale (w b)) 256
      ≤ ∑ b ∈ Finset.range 256, (w (UInt8.ofNat b) * scale / total + 1) := by
        apply Finset.sum_le_sum
        intro b _
        change share total scale (w (UInt8.ofNat b)) ≤ _
        rw [share, if_neg htotal]
        exact max_le (Nat.le_add_left 1 _) (Nat.le_succ _)
    _ = ∑ b ∈ Finset.range 256, w (UInt8.ofNat b) * scale / total + 256 := by
        rw [Finset.sum_add_distrib, Finset.sum_const, Finset.card_range, smul_eq_mul, mul_one]
    _ ≤ scale + 256 := Nat.add_le_add_right hdiv _

/-! ## The whole function -/

/-- A table of 32-bit numbers that begins at 0 and does not fall. -/
structure Rising (cum : Cum) : Prop where
  zero : cum 0 = 0
  mono : ∀ i < 256, cum i ≤ cum (i + 1)
  lt : cum 256 < 2 ^ 32

/-- A table that gives every byte a width, to this total. -/
structure Exact (scale : Nat) (cum : Cum) : Prop where
  zero : cum 0 = 0
  pos : ∀ i < 256, cum i + 1 ≤ cum (i + 1)
  total : cum 256 = scale

theorem Exact.rising (h : Exact scale cum) (hscale : scale < 2 ^ 32) : Rising cum :=
  ⟨h.zero, fun i hi => (Nat.le_succ _).trans (h.pos i hi), h.total ▸ hscale⟩

/-- The widths that the requantisation begins with. -/
def given (cum : Cum) (scale : Nat) (b : UInt8) : Nat :=
  if cum 256 = 0 then (if scale / 256 = 0 then 1 else scale / 256)
  else cum (b.toNat + 1) - cum b.toNat

theorem Rising.le (h : Rising cum) {i j : Nat} (hij : i ≤ j) (hj : j ≤ 256) :
    cum i ≤ cum j := by
  induction j, hij using Nat.le_induction with
  | base => exact le_rfl
  | succ j _ ih => exact (ih (by omega)).trans (h.mono j (by omega))

theorem Rising.widthsOf (h : Rising cum) (W : Words) (scale : Nat) :
    widthsOf W cum scale = .ok (given cum scale) := by
  unfold Symdist.widthsOf given
  split_ifs
  · rfl
  · rfl
  · apply forBytes_ok
    intro b
    have hb : b.toNat < 256 := b.toNat_lt
    exact W.sub32_of_le (h.mono _ hb) ((h.le hb le_rfl).trans_lt h.lt)

theorem Rising.given_facts (h : Rising cum) (hscale : 256 ≤ scale) (hscale' : scale < 2 ^ 32) :
    (∀ b, given cum scale b < 2 ^ 32) ∧
      (∀ b, share (cum 256) scale (given cum scale b) ≤ scale) ∧
      widthSum (fun b => share (cum 256) scale (given cum scale b)) 256 ≤ scale + 256 := by
  by_cases h0 : cum 256 = 0
  · have hbase : scale / 256 ≠ 0 := by omega
    have hgiven : ∀ b, given cum scale b = scale / 256 := fun b => by
      rw [given, if_pos h0, if_neg hbase]
    have hshare : share (cum 256) scale (scale / 256) = scale / 256 := by
      rw [share, if_pos h0]
      exact max_eq_right (by omega)
    simp only [hgiven, hshare]
    refine ⟨fun _ => by omega, fun _ => by omega, ?_⟩
    rw [widthSum, Finset.sum_const, Finset.card_range, smul_eq_mul]
    omega
  · have hgiven : given cum scale = fun b => cum (b.toNat + 1) - cum b.toNat :=
      funext fun b => if_neg h0
    have hsum : widthSum (given cum scale) 256 = cum 256 := by
      rw [hgiven]
      exact widthSum_diff h.zero h.mono le_rfl
    have hle : ∀ b, given cum scale b ≤ cum 256 := fun b => hsum ▸ le_widthSum _ b
    exact ⟨fun b => (hle b).trans_lt h.lt,
      fun b => share_le (by omega) (hle b) h0, widthSum_share_le h0 hsum⟩

theorem Exact.share_given (h : Exact scale cum) (hscale : 256 ≤ scale) (b : UInt8) :
    share (cum 256) scale (given cum scale b) = cum (b.toNat + 1) - cum b.toNat := by
  have hne : cum 256 ≠ 0 := by
    rw [h.total]
    omega
  have hb : b.toNat < 256 := b.toNat_lt
  have hpos := h.pos b.toNat hb
  rw [share, given, if_neg hne, if_neg hne, h.total, Nat.mul_div_cancel _ (by omega)]
  exact max_eq_right (by omega)

theorem symdistNormalize_ok (h : Rising cum) (hscale : 256 ≤ scale) (hscale' : scale < 2 ^ 32) :
    ∃ cum', (∀ W, symdistNormalize W cum scale = .ok cum') ∧ Exact scale cum' ∧
      (Exact scale cum → cum' = cum) := by
  obtain ⟨hlt, hle, hsum⟩ := h.given_facts hscale hscale'
  have hpos : ∀ b, 1 ≤ share (cum 256) scale (given cum scale b) := fun b => le_max_left _ _
  obtain ⟨w', hrun, hpos', hsum', hsame⟩ := correct_ok hpos hscale hscale' hsum hle
  have haccumulate : ∀ W : Words, accumulate pure W.u32 cum w' =
      .ok fun i => if i < 257 then widthSum w' i else cum i := fun W =>
    accumulate_ok (fun _ _ => rfl) fun x hx => W.u32_of_lt (by omega)
  refine ⟨fun i => if i < 257 then widthSum w' i else cum i, fun W => ?_,
    ⟨?_, fun i hi => ?_, ?_⟩, fun hexact => funext fun i => ?_⟩
  · have hnw : forBytes (fun b => requantise W (cum 256) scale (given cum scale b)) =
        .ok fun b => share (cum 256) scale (given cum scale b) :=
      forBytes_ok fun b => requantise_ok W (hlt b) hscale'
    have hcast : forBytes (fun b => W.u32 (share (cum 256) scale (given cum scale b))) =
        .ok fun b => share (cum 256) scale (given cum scale b) :=
      forBytes_ok fun b => W.u32_of_lt ((hle b).trans_lt hscale')
    have hadd : sumBytes W.u64 (fun b => share (cum 256) scale (given cum scale b)) =
        .ok (widthSum (fun b => share (cum 256) scale (given cum scale b)) 256) :=
      sumBytes_ok fun x hx => W.u64_of_lt (by omega)
    simp only [symdistNormalize, h.widthsOf W scale, ok_bind, hnw, hadd, hcast, hrun W,
      haccumulate W]
  · rfl
  · rw [if_pos (by omega), if_pos (by omega), widthSum_succ]
    exact Nat.add_le_add_left (hpos' _) _
  · rw [if_pos (by norm_num), hsum']
  · have hwidth : (fun b => share (cum 256) scale (given cum scale b)) =
        fun b => cum (b.toNat + 1) - cum b.toNat := funext (hexact.share_given hscale)
    have hw : w' = fun b => cum (b.toNat + 1) - cum b.toNat := by
      rw [hsame, hwidth]
      rw [hwidth, widthSum_diff h.zero h.mono le_rfl, hexact.total]
    split_ifs with hi
    · rw [hw, widthSum_diff h.zero h.mono (by omega)]
    · rfl

/-- Where every step is checked, none fails. -/
theorem symdistNormalize_checked (h : Rising cum) (hscale : 256 ≤ scale)
    (hscale' : scale < 2 ^ 32) : ∃ cum', symdistNormalize .checked cum scale = .ok cum' ∧
      symdistNormalize .wrapping cum scale = .ok cum' := by
  obtain ⟨cum', hrun, -⟩ := symdistNormalize_ok h hscale hscale'
  exact ⟨cum', hrun .checked, hrun .wrapping⟩

/-- No step wraps around, the loop ends, and the table is forced to the scale; an exact table
stays as it is. -/
theorem symdistNormalize_exact (h : Rising cum) (hscale : 256 ≤ scale) (hscale' : scale < 2 ^ 32) :
    ∃ cum', (∀ W, symdistNormalize W cum scale = .ok cum') ∧ Exact scale cum' ∧
      (Exact scale cum → cum' = cum) ∧ ∀ W, symdistNormalize W cum' scale = .ok cum' := by
  obtain ⟨cum', hrun, hexact, hsame⟩ := symdistNormalize_ok h hscale hscale'
  obtain ⟨cum'', hrun', -, hsame'⟩ := symdistNormalize_ok (hexact.rising hscale') hscale hscale'
  obtain rfl := hsame' hexact
  exact ⟨cum'', hrun, hexact, hsame, hrun'⟩

theorem symdistNormalize_exact_one : ∃ cum',
    (∀ W, symdistNormalize W (fun i => if i ≤ 7 then 0 else 5) 256 = .ok cum') ∧ Exact 256 cum' ∧
      (Exact 256 (fun i => if i ≤ 7 then 0 else 5) →
        cum' = fun i => if i ≤ 7 then 0 else 5) ∧
      ∀ W, symdistNormalize W cum' 256 = .ok cum' :=
  symdistNormalize_exact ⟨rfl, fun i _ => by split_ifs <;> omega, by decide⟩ le_rfl (by decide)

end Bcb.Symdist
