import Bcb.Bt.LutAccuracy
import Bcb.Lib.WeightedMean
import Bcb.V0.Predict

namespace Bcb.V0

open Lib Bt Real WeightedMean

variable {B : Build}

theorem pres_real_pos (B : Build) : (0 : ℝ) < B.pres := by exact_mod_cast B.pres_pos

/-- The confidence in the middle of the `i`-th step of the scale. -/
noncomputable def stepConf (B : Build) (i : Nat) : ℝ := max ((2 * i + 1 : Nat) * 128 / B.pres) 1

theorem stepConf_eq (B : Build) (i : Nat) :
    stepConf B i = max ((2 * i + 1) * 128 / B.pres : ℝ) 1 := by
  rw [stepConf, Nat.cast_add, Nat.cast_mul, Nat.cast_ofNat, Nat.cast_one]

theorem one_le_stepConf (B : Build) (i : Nat) : 1 ≤ stepConf B i := le_max_right _ _

theorem confQ16_eq (B : Build) (i : Nat) :
    ((max ((2 * i + 1) * 128 * 2 ^ 16 / B.pres) (2 ^ 16) : Nat) : ℝ) / 2 ^ 16 = stepConf B i := by
  have hle := B.presBits_le
  have hsplit : (128 * 2 ^ 16 : Nat) = 2 ^ (23 - B.presBits) * B.pres := by
    rw [Build.pres, ← pow_add, Nat.sub_add_cancel (hle.trans (by norm_num))]
    norm_num
  have hsplitR : (128 : ℝ) * 2 ^ 16 = 2 ^ (23 - B.presBits) * B.pres := by exact_mod_cast hsplit
  have hpos := pres_real_pos B
  have hq : (2 * i + 1) * 128 * 2 ^ 16 / B.pres = (2 * i + 1) * 2 ^ (23 - B.presBits) := by
    rw [mul_assoc, hsplit, ← mul_assoc, Nat.mul_div_cancel _ B.pres_pos]
  have hqR : (((2 * i + 1) * 2 ^ (23 - B.presBits) : Nat) : ℝ) =
      (2 * i + 1) * 128 / B.pres * 2 ^ 16 := by
    push_cast
    rw [div_mul_eq_mul_div, mul_assoc _ (128 : ℝ), hsplitR, ← mul_assoc,
      mul_div_cancel_right₀ _ hpos.ne']
  rw [hq, Nat.cast_max, hqR, Nat.cast_pow, Nat.cast_ofNat, stepConf_eq,
    ← max_div_div_right (by positivity), mul_div_cancel_right₀ _ (by positivity),
    div_self (by positivity)]

theorem confLog2_near (B : Build) (i : Nat) :
    (confLog2 B i : ℝ) ≤ 2 ^ 16 * (20 * logb 2 (stepConf B i)) ∧
      2 ^ 16 * (20 * logb 2 (stepConf B i)) ≤ confLog2 B i + 80 := by
  have hge : 2 ^ 16 ≤ max ((2 * i + 1) * 128 * 2 ^ 16 / B.pres) (2 ^ 16) := le_max_right _ _
  have hlow := log2Q16_le_logb hge
  have hhigh := logb_lt_log2Q16 hge
  rw [confQ16_eq] at hlow hhigh
  rw [confLog2]
  push_cast
  constructor
  · linarith
  · linarith

theorem expLog2_near {n : Nat} (hn : n ≤ btMaxDepth) :
    (expLog2 n : ℝ) ≤ 2 ^ 16 * (n / log 2) ∧ 2 ^ 16 * (n / log 2) ≤ expLog2 n + 12 := by
  have hn24 : (n : ℝ) ≤ 24 := by exact_mod_cast hn
  have hn0 : (0 : ℝ) ≤ n := Nat.cast_nonneg n
  have hlow := log_two_gt_d9
  have hhigh := log_two_lt_d9
  have hpos : (0 : ℝ) < log 2 := by linarith
  rw [expLog2]
  push_cast
  constructor
  · rw [← mul_div_assoc, le_div_iff₀ hpos]
    nlinarith
  · rw [← mul_div_assoc, div_le_iff₀ hpos]
    nlinarith

theorem weightLog_near {n : Nat} (hn : n ≤ btMaxDepth) (i : Nat) :
    (2 : ℝ) ^ (((expLog2 n + confLog2 B i : Int) : ℝ) / 2 ^ 16) ≤ exp n * stepConf B i ^ 20 ∧
      exp n * stepConf B i ^ 20 ≤
        2 ^ (((expLog2 n + confLog2 B i : Int) : ℝ) / 2 ^ 16) * (1 + 92 / 2 ^ 16) := by
  obtain ⟨hc, hc'⟩ := confLog2_near B i
  obtain ⟨he, he'⟩ := expLog2_near hn
  have hconf : 0 < stepConf B i := lt_of_lt_of_le one_pos (one_le_stepConf B i)
  have hpow : exp n * stepConf B i ^ 20 = 2 ^ (n / log 2 + 20 * logb 2 (stepConf B i)) := by
    rw [rpow_add two_pos, mul_comm (20 : ℝ), rpow_mul zero_le_two,
      rpow_logb two_pos (by norm_num) hconf]
    congr 1
    · rw [rpow_def_of_pos two_pos, mul_div_cancel₀ _ (log_pos one_lt_two).ne']
    · exact_mod_cast (rpow_natCast (stepConf B i) 20).symm
  rw [hpow]
  push_cast
  constructor
  · apply rpow_le_rpow_of_exponent_le one_le_two
    rw [div_le_iff₀ (by positivity)]
    linarith
  · have h92 : (2 : ℝ) ^ (92 / 2 ^ 16 : ℝ) ≤ 1 + 92 / 2 ^ 16 :=
      BitPower.two_rpow_le (by norm_num) (by norm_num)
    calc (2 : ℝ) ^ (n / log 2 + 20 * logb 2 (stepConf B i))
        ≤ 2 ^ (((expLog2 n : ℝ) + confLog2 B i) / 2 ^ 16 + 92 / 2 ^ 16) := by
          apply rpow_le_rpow_of_exponent_le one_le_two
          rw [← add_div, le_div_iff₀ (by positivity)]
          linarith
      _ = 2 ^ (((expLog2 n : ℝ) + confLog2 B i) / 2 ^ 16) * 2 ^ (92 / 2 ^ 16 : ℝ) :=
        rpow_add two_pos _ _
      _ ≤ _ := by gcongr

/-- What rounding a confidence to the middle of its step changes it by. -/
noncomputable def confStep (B : Build) : ℝ := 1 + 128 / B.pres

theorem stepConf_near {p : ℝ} {q : Nat} (hle : (q : ℝ) ≤ p * B.pres) (hlt : p * B.pres < q + 1)
    (h1 : p ≤ 1) :
    stepConf B (confIndex B q).toNat ≤ confStep B * max (p * 256) 1 ∧
      max (p * 256) 1 ≤ confStep B * stepConf B (confIndex B q).toNat := by
  have hpos := pres_real_pos B
  have hpres := B.pres_pos
  have hpres16 := B.pres_le
  have hq : q ≤ B.pres := by
    have hqR : (q : ℝ) ≤ B.pres := hle.trans (by nlinarith)
    exact_mod_cast hqR
  have hidx : (confIndex B q).toNat = min q (B.pres - 1) := by
    rw [confIndex, toInt32_of_lt (by omega) (by omega)]
    omega
  rw [hidx]
  have hmid : |(2 * ((min q (B.pres - 1) : Nat) : ℝ) + 1) * 128 / B.pres - p * 256| ≤
      128 / B.pres := by
    have hnear : |(2 * ((min q (B.pres - 1) : Nat) : ℝ) + 1) - 2 * (p * B.pres)| ≤ 1 := by
      rcases Nat.lt_or_ge q B.pres with hlt' | hge
      · rw [Nat.min_eq_left (by omega), abs_le]
        constructor <;> linarith
      · obtain rfl : q = B.pres := le_antisymm hq hge
        have hp1 : p * B.pres ≤ B.pres := by nlinarith
        rw [Nat.min_eq_right (by omega), Nat.cast_sub hpres, Nat.cast_one, abs_le]
        constructor <;> linarith
    have hscale : (2 * ((min q (B.pres - 1) : Nat) : ℝ) + 1) * 128 / B.pres - p * 256 =
        ((2 * ((min q (B.pres - 1) : Nat) : ℝ) + 1) - 2 * (p * B.pres)) * (128 / B.pres) := by
      field_simp
      ring
    rw [hscale, abs_mul, abs_of_pos (by positivity : (0 : ℝ) < 128 / B.pres)]
    exact mul_le_of_le_one_left (by positivity) hnear
  have hmax := (abs_max_sub_max_le_abs ((2 * ((min q (B.pres - 1) : Nat) : ℝ) + 1) * 128 / B.pres)
    (p * 256) 1).trans hmid
  rw [abs_le] at hmax
  have hδ : (0 : ℝ) < 128 / B.pres := by positivity
  have hone : (1 : ℝ) ≤ max (p * 256) 1 := le_max_right _ _
  have hone' := one_le_stepConf B (min q (B.pres - 1))
  rw [stepConf_eq] at hone' ⊢
  rw [confStep]
  constructor
  · nlinarith [hmax.2]
  · nlinarith [hmax.1]

/-- A context that was met, no byte more often than the context. -/
structure CountsLe (total freq : UInt32) : Prop where
  total_pos : 0 < total.toNat
  spread_pos : 0 < spread total
  freq_le : freq.toNat ≤ total.toNat

/-- A term of `btv3.c` is the probability of `predict_byte`, twice rounded down. -/
theorem countTerm_near (n : Nat) {total freq : UInt32} (h : CountsLe total freq) : ∃ q k : Nat,
    countTerm B n total freq = (expLog2 n + confLog2 B (confIndex B q).toNat, (k : Int)) ∧
      ((q : ℝ) ≤ predictP total freq * B.pres ∧ predictP total freq * B.pres < q + 1) ∧
      ((k : ℝ) ≤ predictP total freq * 2 ^ 28 ∧ predictP total freq * 2 ^ 28 < k + 1) := by
  by_cases hf : freq = 0
  · refine ⟨B.pres / spread total, pscale / spread total, ?_, ?_, ?_⟩
    · rw [countTerm, if_pos hf]
      rfl
    · have hfl := SquareLog.cast_floor B.pres (spread total) h.spread_pos
      rw [predictP, if_neg (by rw [hf]; exact lt_irrefl 0), one_div_mul_eq_div]
      exact hfl
    · have hfl := SquareLog.cast_floor pscale (spread total) h.spread_pos
      have hpscale : ((pscale : Nat) : ℝ) = 2 ^ 28 := by
        rw [pscale]
        norm_num
      rw [hpscale] at hfl
      rw [predictP, if_neg (by rw [hf]; exact lt_irrefl 0), one_div_mul_eq_div]
      exact hfl
  · have hpos : 0 < freq := UInt32.pos_iff_ne_zero.2 hf
    refine ⟨freq.toNat * B.pres / total.toNat, freq.toNat * pscale / total.toNat, ?_, ?_, ?_⟩
    · rw [countTerm, if_neg hf]
    · have hfl := SquareLog.cast_floor (freq.toNat * B.pres) total.toNat h.total_pos
      rw [predictP, if_pos hpos, div_mul_eq_mul_div]
      exact_mod_cast hfl
    · have hfl := SquareLog.cast_floor (freq.toNat * pscale) total.toNat h.total_pos
      rw [predictP, if_pos hpos, div_mul_eq_mul_div]
      rw [pscale] at hfl ⊢
      exact_mod_cast hfl

theorem predictP_mem {total freq : UInt32} (h : CountsLe total freq) :
    0 ≤ predictP total freq ∧ predictP total freq ≤ 1 := by
  have htotal : (0 : ℝ) < total.toNat := by exact_mod_cast h.total_pos
  have hspread : (1 : ℝ) ≤ (total + 256).toNat := by exact_mod_cast h.spread_pos
  unfold predictP
  split_ifs
  · refine ⟨by positivity, (div_le_one htotal).2 ?_⟩
    exact_mod_cast h.freq_le
  · exact ⟨by positivity, (div_le_one (by linarith)).2 hspread⟩

/-- A term, and what it is rounded from. -/
noncomputable def termItem (B : Build) (m : Int) (n : Nat) (total freq : UInt32) : Item where
  w := expWeight B ((countTerm B n total freq).1 - m)
  p := (countTerm B n total freq).2
  weight := predictW n (predictP total freq)
  value := predictP total freq * (2 ^ 28 : Nat)

/-- What the tables of `build_luts` and the steps of the confidences may change a weight by. -/
noncomputable def weightFactor (B : Build) : ℝ := confStep B ^ 20 * (1 + 92 / (2 ^ 16 : Nat))

theorem weightFactor_eq (B : Build) : weightFactor B = confStep B ^ 20 * (1 + 92 / 2 ^ 16) := by
  rw [weightFactor, Nat.cast_pow, Nat.cast_ofNat]

theorem one_le_confStep (B : Build) : 1 ≤ confStep B := by
  have hpos := pres_real_pos B
  have hδ : (0 : ℝ) ≤ 128 / B.pres := by positivity
  rw [confStep]
  linarith

theorem termItem_within {n : Nat} (hn : n ≤ btMaxDepth) {total freq : UInt32}
    (h : CountsLe total freq) {m : Int} (hm : (countTerm B n total freq).1 ≤ m) :
    (termItem B m n total freq).Within (2 ^ 28 * 2 ^ (-(m : ℝ) / 2 ^ 16)) (weightFactor B) 2 1 1
      (2 ^ 28) := by
  obtain ⟨q, k, hterm, ⟨hq, hq'⟩, hk, hk'⟩ := countTerm_near (B := B) n h
  obtain ⟨hp0, hp1⟩ := predictP_mem h
  obtain ⟨hlow, hhigh⟩ := weightLog_near (B := B) hn (confIndex B q).toNat
  obtain ⟨hconf, hconf'⟩ := stepConf_near hq hq' hp1
  rw [hterm] at hm
  simp only at hm
  have hstep := one_le_confStep B
  have hsc := one_le_stepConf B (confIndex B q).toNat
  have hcf : (1 : ℝ) ≤ max (predictP total freq * 256) 1 := le_max_right _ _
  -- the weight as a multiple of the common scale
  obtain ⟨neg, hneg⟩ := Int.eq_ofNat_of_zero_le (sub_nonneg.2 hm)
  have hnorm : expLog2 n + confLog2 B (confIndex B q).toNat - m = -(neg : Int) := by omega
  obtain ⟨hw, hw'⟩ := expWeight_near B neg
  have hscale : (2 : ℝ) ^ (-(neg : ℝ) / 2 ^ 16) = 2 ^ (-(m : ℝ) / 2 ^ 16) *
      2 ^ (((expLog2 n + confLog2 B (confIndex B q).toNat : Int) : ℝ) / 2 ^ 16) := by
    rw [← rpow_add two_pos, ← add_div]
    congr 2
    have hcast : ((-(neg : Int) : Int) : ℝ) =
        ((expLog2 n + confLog2 B (confIndex B q).toNat - m : Int) : ℝ) := by rw [hnorm]
    push_cast at hcast ⊢
    linarith
  rw [hscale] at hw hw'
  have hC : (0 : ℝ) < 2 ^ (-(m : ℝ) / 2 ^ 16) := by positivity
  have hE : (0 : ℝ) < exp n := exp_pos _
  have hpow : stepConf B (confIndex B q).toNat ^ 20 ≤
      confStep B ^ 20 * max (predictP total freq * 256) 1 ^ 20 := by
    rw [← mul_pow]
    exact pow_le_pow_left₀ (by linarith) hconf 20
  have hpow' : max (predictP total freq * 256) 1 ^ 20 ≤
      confStep B ^ 20 * stepConf B (confIndex B q).toNat ^ 20 := by
    rw [← mul_pow]
    exact pow_le_pow_left₀ (by linarith) hconf' 20
  simp only [termItem, hterm, hnorm, weightFactor_eq, Nat.cast_pow, Nat.cast_ofNat]
  generalize (2 : ℝ) ^ (((expLog2 n + confLog2 B (confIndex B q).toNat : Int) : ℝ) / 2 ^ 16) = E at *
  have hW : 0 ≤ exp n * max (predictP total freq * 256) 1 ^ 20 := by positivity
  refine ⟨?_, ?_, ?_, ?_, ?_, ?_, ?_, ?_, ?_⟩ <;> dsimp only [predictW]
  · exact_mod_cast expWeight_nonneg B _
  · exact_mod_cast Nat.zero_le k
  · exact hW
  · positivity
  · linarith
  · calc (expWeight B (-(neg : Int)) : ℝ)
        ≤ 2 ^ 28 * (2 ^ (-(m : ℝ) / 2 ^ 16) * E) * (801 / 800) := hw'
      _ ≤ 2 ^ 28 * (2 ^ (-(m : ℝ) / 2 ^ 16) * (exp n * (confStep B ^ 20 *
            max (predictP total freq * 256) 1 ^ 20))) * (1 + 92 / 2 ^ 16) := by
        gcongr
        · exact hlow.trans (mul_le_mul_of_nonneg_left hpow hE.le)
        · norm_num
      _ = _ := by ring
  · calc 2 ^ 28 * 2 ^ (-(m : ℝ) / 2 ^ 16) * (exp n * max (predictP total freq * 256) 1 ^ 20)
        ≤ 2 ^ 28 * 2 ^ (-(m : ℝ) / 2 ^ 16) *
            (exp n * (confStep B ^ 20 * stepConf B (confIndex B q).toNat ^ 20)) := by gcongr
      _ = 2 ^ 28 * 2 ^ (-(m : ℝ) / 2 ^ 16) * confStep B ^ 20 *
            (exp n * stepConf B (confIndex B q).toNat ^ 20) := by ring
      _ ≤ 2 ^ 28 * 2 ^ (-(m : ℝ) / 2 ^ 16) * confStep B ^ 20 * (E * (1 + 92 / 2 ^ 16)) := by gcongr
      _ = confStep B ^ 20 * (1 + 92 / 2 ^ 16) * (2 ^ 28 * (2 ^ (-(m : ℝ) / 2 ^ 16) * E)) := by ring
      _ ≤ confStep B ^ 20 * (1 + 92 / 2 ^ 16) * (expWeight B (-(neg : Int)) + 2) := by
        gcongr
        linarith
  · rw [one_mul]
    exact_mod_cast hk
  · rw [one_mul]
    exact_mod_cast hk'.le

end Bcb.V0
