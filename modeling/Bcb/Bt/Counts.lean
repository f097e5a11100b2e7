import Bcb.Bt.Faults

/-! Which counts the arithmetic of `bt_v3_distribution_r` can stand.  Three things can go
wrong: the divisor `total+256` is 0 in 32 bits, the quotient `f*PRES/total` is negative as an
`int`, or the weighted sum of the terms of a byte leaves 64 bits. -/

namespace Bcb.Bt

open Lib

variable {B : Build}

/-- The faults of memory and control. -/
def Memory (f : Fault) : Prop := f.isMemory = true

/-- `total+256`, on `unsigned`. -/
def spread (total : UInt32) : Nat := (total + 256).toNat

def defaultTerm (B : Build) (n : Nat) (total : UInt32) : Int × Int :=
  (expLog2 n + confLog2 B (confIndex B (B.pres / spread total : Nat)).toNat,
    (pscale / spread total : Nat))

/-- The logarithm and the probability of a byte counted `f` times in a context. -/
def countTerm (B : Build) (n : Nat) (total f : UInt32) : Int × Int :=
  if f = 0 then defaultTerm B n total
  else (expLog2 n + confLog2 B (confIndex B (f.toNat * B.pres / total.toNat : Nat)).toNat,
    (f.toNat * pscale / total.toNat : Nat))

/-- `(int)(f*PRES/total)` is no negative index. -/
def IndexOk (B : Build) (total f : UInt32) : Prop :=
  f ≠ 0 → f.toNat * B.pres / total.toNat % 2 ^ 32 < 2 ^ 31

theorem toInt32_nonneg_iff (q : Nat) : 0 ≤ toInt32 q ↔ q % 2 ^ 32 < 2 ^ 31 := by
  unfold toInt32
  rw [Int.bmod_def]
  split_ifs <;> omega

theorem confIndex_lt (q : Int) : confIndex B q < B.pres := by
  unfold confIndex
  omega

theorem confIndex_nonneg {q : Int} (h : 0 ≤ toInt32 q) : 0 ≤ confIndex B q := by
  have hpres := B.pres_pos
  unfold confIndex
  omega

theorem readConfLog2_confIndex {q : Int} (h : 0 ≤ toInt32 q) :
    readConfLog2 B true (confIndex B q) = .ok (confLog2 B (confIndex B q).toNat) :=
  readConfLog2_true B (confIndex_nonneg h) (confIndex_lt q)

theorem readConfLog2_negative {q : Int} (h : toInt32 q < 0) :
    readConfLog2 B true (confIndex B q) = .error .lutIndex := by
  have hneg : ¬ (0 ≤ confIndex B q ∧ confIndex B q < B.pres) := by
    unfold confIndex
    omega
  rw [readConfLog2, if_neg (by decide), if_neg hneg]
  rfl

theorem logTerm_mem {n : Nat} (hn : n ≤ btMaxDepth) (i : Nat) (hi : i < B.pres) :
    0 ≤ expLog2 n + confLog2 B i ∧ expLog2 n + confLog2 B i ≤ 2 ^ 25 := by
  have h0 := confLog2_nonneg B i
  have hle := confLog2_le B hi
  simp only [btMaxDepth] at hn
  simp only [expLog2]
  omega

theorem confIndex_toNat_lt (q : Int) : (confIndex B q).toNat < B.pres := by
  have hlt := confIndex_lt (B := B) q
  have hpres := B.pres_pos
  omega

theorem i64_small {x : Int} (h0 : 0 ≤ x) (h : x < 2 ^ 63) : i64 x = .ok x := i64_ok (by omega) h

/-- The terms of a byte: bounded logarithms, and probabilities that can be far above 1. -/
structure TermOk (t : Int × Int) : Prop where
  l_nonneg : 0 ≤ t.1
  l_le : t.1 ≤ 2 ^ 25
  p_nonneg : 0 ≤ t.2
  p_lt : t.2 < 2 ^ 60

theorem defaultTerm_ok {n : Nat} (hn : n ≤ btMaxDepth) (total : UInt32) :
    TermOk (defaultTerm B n total) := by
  obtain ⟨h0, hle⟩ := logTerm_mem hn _ (confIndex_toNat_lt (B := B) (B.pres / spread total : Nat))
  have hdiv := Nat.div_le_self pscale (spread total)
  refine ⟨h0, hle, ?_, ?_⟩
  · exact Int.natCast_nonneg _
  · simp only [defaultTerm]
    simp only [pscale] at hdiv ⊢
    omega

theorem pscale_le : pscale ≤ 2 ^ 28 := by
  unfold pscale
  exact le_rfl

theorem defaultTerm_p_le (n : Nat) (total : UInt32) : (defaultTerm B n total).2 ≤ 2 ^ 28 := by
  have hle := (Nat.div_le_self pscale (spread total)).trans pscale_le
  simp only [defaultTerm]
  omega

theorem countTerm_ok {n : Nat} (hn : n ≤ btMaxDepth) (total f : UInt32) :
    TermOk (countTerm B n total f) := by
  unfold countTerm
  split_ifs
  · exact defaultTerm_ok hn total
  · obtain ⟨h0, hle⟩ := logTerm_mem hn _
      (confIndex_toNat_lt (B := B) (f.toNat * B.pres / total.toNat : Nat))
    have hdiv := Nat.div_le_self (f.toNat * pscale) total.toNat
    have hf := f.toNat_lt
    refine ⟨h0, hle, by positivity, ?_⟩
    simp only [pscale] at hdiv ⊢
    omega

theorem i64Div_nat (a : Nat) {b : Nat} (hb : b ≠ 0) : i64Div a b = .ok (a / b : Nat) := by
  rw [i64Div_of_pos (by omega) (by omega)]
  rfl

theorem act_ok {n : Nat} (hn : n ≤ btMaxDepth) {total : UInt32} (chain : List BtEntry)
    (h : spread total ≠ 0) : act B true n total chain =
      .ok ⟨n, total, (defaultTerm B n total).1, (defaultTerm B n total).2, actFreq chain⟩ := by
  have hidx : 0 ≤ toInt32 (B.pres / spread total : Nat) := by
    have hpres := B.pres_le
    have hle := Nat.div_le_self B.pres (spread total)
    rw [toInt32_nonneg_iff, Nat.mod_eq_of_lt (by omega)]
    omega
  obtain ⟨h0, hle⟩ := logTerm_mem hn _ (confIndex_toNat_lt (B := B) (B.pres / spread total : Nat))
  change (i64Div (B.pres : Int) (spread total) >>= _) = _
  rw [i64Div_nat _ h, ok_bind, readConfLog2_confIndex hidx, ok_bind, i64_small h0 (by omega),
    ok_bind]
  change (i64Div (pscale : Int) (spread total) >>= _) = _
  rw [i64Div_nat _ h]
  rfl

theorem act_divZero (n : Nat) {total : UInt32} (chain : List BtEntry) (h : spread total = 0) :
    act B true n total chain = .error .divZero := by
  have hdiv : i64Div (B.pres : Int) (spread total) = .error .divZero := by
    rw [h]
    exact if_pos rfl
  change (i64Div (B.pres : Int) (spread total) >>= _) = _
  rw [hdiv]
  rfl

/-- A context as the terms of its level see it. -/
structure ActOk (B : Build) (a : Act) : Prop where
  n_le : a.n ≤ btMaxDepth
  total_pos : a.total.toNat ≠ 0
  default_eq : (a.l0, a.p0) = defaultTerm B a.n a.total

variable {a : Act} {b : UInt8}

theorem i64_count (f : UInt32) {k : Nat} (hk : k ≤ 2 ^ 28) :
    i64 ((f.toNat : Int) * k) = .ok (f.toNat * k : Nat) := by
  have hf := f.toNat_lt
  have hmul : f.toNat * k < 2 ^ 63 := by
    calc f.toNat * k ≤ 2 ^ 32 * 2 ^ 28 := Nat.mul_le_mul hf.le hk
      _ < 2 ^ 63 := by norm_num
  rw [i64_small (by positivity) (by exact_mod_cast hmul)]
  push_cast
  rfl

theorem pres_le_pscale (B : Build) : B.pres ≤ 2 ^ 28 := B.pres_le.trans (by norm_num)

theorem actTerm_ok (ha : ActOk B a) (h : IndexOk B a.total (a.freq b)) :
    actTerm B true b a = .ok (countTerm B a.n a.total (a.freq b)) := by
  unfold actTerm countTerm
  split_ifs with hf
  · rw [ha.default_eq]
    rfl
  · have hx := i64_count (a.freq b) (pres_le_pscale B)
    have hy := i64_count (a.freq b) pscale_le
    have hq := i64Div_nat ((a.freq b).toNat * B.pres) ha.total_pos
    have hp := i64Div_nat ((a.freq b).toNat * pscale) ha.total_pos
    have hc := readConfLog2_confIndex (B := B) ((toInt32_nonneg_iff _).2 (h hf))
    obtain ⟨h0, hle⟩ := logTerm_mem ha.n_le _
      (confIndex_toNat_lt (B := B) ((a.freq b).toNat * B.pres / a.total.toNat : Nat))
    dsimp only
    rw [hx, ok_bind, hq, ok_bind, hc, ok_bind, i64_small h0 (by omega), ok_bind, hy, ok_bind, hp]
    rfl

theorem actTerm_negative (ha : ActOk B a) (h : ¬ IndexOk B a.total (a.freq b)) :
    actTerm B true b a = .error .lutIndex := by
  obtain ⟨hf, hidx⟩ := Classical.not_imp.1 h
  have hx := i64_count (a.freq b) (pres_le_pscale B)
  have hq := i64Div_nat ((a.freq b).toNat * B.pres) ha.total_pos
  have hneg := Int.lt_of_not_ge fun h => hidx ((toInt32_nonneg_iff _).1 h)
  rw [actTerm, if_neg hf]
  dsimp only
  rw [hx, ok_bind, hq, ok_bind, readConfLog2_negative hneg]
  rfl

end Bcb.Bt
