import Bcb.Lib.SquareDigits
import Bcb.Prior.SchemaCounts

/-! The mode of each byte of a schema is the cheaper one on the records held out, in exact
arithmetic and up to the 32 digits of `bcb_log2_nolibm`. -/

namespace Bcb.Prior

open Lib Bt RangeCoder Real

section Log

variable {fuel : Nat} {x y r : ℚ} {e e' : Int}

theorem scaleUp_known (hx : 0 < x) (h : scaleUp .exact fuel x e = .ok (y, e')) :
    1 ≤ y ∧ logb 2 (y : ℝ) + e' = logb 2 (x : ℝ) + e := by
  induction fuel generalizing x e with
  | zero => cases h
  | succ fuel ih =>
    rw [scaleUp] at h
    split_ifs at h with hlt
    · have hx' : 0 < x * 2 := by linarith
      obtain ⟨hy, hlog⟩ := ih hx' h
      refine ⟨hy, hlog.trans ?_⟩
      have hxR : (x : ℝ) ≠ 0 := by exact_mod_cast hx.ne'
      push_cast
      rw [logb_mul hxR two_ne_zero, logb_self_eq_one one_lt_two]
      ring
    · obtain ⟨rfl, rfl⟩ := Prod.mk.inj (Except.ok.inj h)
      exact ⟨not_lt.1 hlt, rfl⟩

theorem scaleDown_known (hx : 1 ≤ x) (h : scaleDown .exact fuel x e = .ok (y, e')) :
    1 ≤ y ∧ y < 2 ∧ logb 2 (y : ℝ) + e' = logb 2 (x : ℝ) + e := by
  induction fuel generalizing x e with
  | zero => cases h
  | succ fuel ih =>
    rw [scaleDown] at h
    split_ifs at h with hle
    · have hx' : 1 ≤ x * (1 / 2) := by linarith
      obtain ⟨hy, hy2, hlog⟩ := ih hx' h
      refine ⟨hy, hy2, hlog.trans ?_⟩
      have hxR : (x : ℝ) ≠ 0 := by
        exact_mod_cast (zero_lt_one.trans_le hx).ne'
      push_cast
      rw [mul_one_div, logb_div hxR two_ne_zero, logb_self_eq_one one_lt_two]
      ring
    · obtain ⟨rfl, rfl⟩ := Prod.mk.inj (Except.ok.inj h)
      exact ⟨hx, not_le.1 hle, rfl⟩

@[simp] theorem fracBit_exact : fracBit .exact = SquareDigits.turn := by
  funext s
  rfl

/-- The logarithm, rounded down to its 32nd digit. -/
theorem bcbLog2Nolibm_near (hx : 0 < x) (h : bcbLog2Nolibm .exact x = .ok r) :
    (r : ℝ) ≤ logb 2 (x : ℝ) ∧ logb 2 (x : ℝ) < r + 1 / 2 ^ 32 := by
  rw [bcbLog2Nolibm, if_neg (not_le.2 hx)] at h
  obtain ⟨⟨y, e⟩, hup, h⟩ := bind_eq_ok.1 h
  obtain ⟨⟨z, e'⟩, hdown, h⟩ := bind_eq_ok.1 h
  obtain rfl := Except.ok.inj h
  obtain ⟨hy, hlogy⟩ := scaleUp_known hx hup
  obtain ⟨hz, hz2, hlogz⟩ := scaleDown_known hy hdown
  have hnear := ((SquareDigits.Known.start hz hz2).iterate 32).near
  rw [Nat.zero_add, ← fracBit_exact] at hnear
  have hadd : ∀ a b : ℚ, Doubles.exact.add a b = a + b := fun _ _ => rfl
  rw [hadd]
  push_cast at hlogy ⊢
  constructor
  · linarith [hnear.1]
  · linarith [hnear.2]

end Log

/-- The share of the symbol of record `r` among the first `nfit` records, smoothed. -/
def heldOutProb (delta : Bool) (corpus : List UInt8) (rec pp nfit r : Nat) : ℚ :=
  (schemaCount delta corpus rec pp nfit (schemaSymbol delta corpus rec pp r) + 1 / 4) /
    ((nfit - firstOf delta : Nat) + 64)

/-- The records that the two kinds of symbols are compared on. -/
def heldOut (nfit nrec : Nat) : List Nat :=
  let vstart := if nfit < nrec then nfit else 1
  List.range' vstart (nrec - vstart)

/-- What the symbols of these records cost, in bits. -/
noncomputable def bits (delta : Bool) (corpus : List UInt8) (rec pp nfit : Nat) (rs : List Nat) :
    ℝ :=
  (rs.map fun r => -logb (2 : Nat) (heldOutProb delta corpus rec pp nfit r : ℝ)).sum

variable {corpus : List UInt8} {rec pp nfit nrec : Nat} {delta : Bool}

theorem heldOutProb_pos (delta : Bool) (corpus : List UInt8) (rec pp nfit r : Nat) :
    0 < heldOutProb delta corpus rec pp nfit r := by
  unfold heldOutProb
  positivity

theorem bits_concat (delta : Bool) (corpus : List UInt8) (rec pp nfit : Nat) (rs : List Nat)
    (r : Nat) : bits delta corpus rec pp nfit (rs ++ [r]) = bits delta corpus rec pp nfit rs +
      -logb 2 (heldOutProb delta corpus rec pp nfit r : ℝ) := by
  rw [bits, List.map_append, List.sum_append, List.map_singleton, List.sum_singleton,
    Nat.cast_ofNat]
  rfl

theorem logProb_near {r : Nat} {y : ℚ} (hfit : nfit ≤ 2 ^ 52)
    (h : logProb .exact (fun b => (schemaCount delta corpus rec pp nfit b : ℚ))
      (schemaSymbol delta corpus rec pp r) = .ok y) :
    (y : ℝ) ≤ logb 2 (heldOutProb delta corpus rec pp nfit r : ℝ) ∧
      logb 2 (heldOutProb delta corpus rec pp nfit r : ℝ) < y + 1 / 2 ^ 32 := by
  have htotal := widthSum_schemaCount delta corpus rec pp nfit
  rw [logProb, sumDoubles_natCast (by omega), htotal] at h
  have hprob : Doubles.exact.div (Doubles.exact.add
      (schemaCount delta corpus rec pp nfit (schemaSymbol delta corpus rec pp r) : ℚ)
        (Doubles.exact.div lmBackoffW 256))
      (Doubles.exact.add ((nfit - firstOf delta : Nat) : ℚ) lmBackoffW) =
        heldOutProb delta corpus rec pp nfit r := by
    have hquarter : Doubles.exact.div lmBackoffW 256 = 1 / 4 := by
      norm_num [Doubles.exact, lmBackoffW]
    rw [hquarter]
    rfl
  rw [hprob] at h
  exact bcbLog2Nolibm_near (heldOutProb_pos ..) h

/-- A cost that is at most `n` units of the last digit above its bits. -/
structure Near (b : ℝ) (n : Nat) (v : ℚ) : Prop where
  below : b ≤ v
  above : (v : ℝ) ≤ b + n / 2 ^ 32

theorem Near.add {b : ℝ} {n r : Nat} {v y : ℚ} (h : Near b n v) (hfit : nfit ≤ 2 ^ 52)
    (hy : logProb .exact (fun b => (schemaCount delta corpus rec pp nfit b : ℚ))
      (schemaSymbol delta corpus rec pp r) = .ok y) :
    Near (b + -logb 2 (heldOutProb delta corpus rec pp nfit r : ℝ)) (n + 1)
      (Doubles.exact.add v (-y)) := by
  obtain ⟨hle, hlt⟩ := logProb_near hfit hy
  obtain ⟨hv, hv'⟩ := h
  have hadd : Doubles.exact.add v (-y) = v - y := (sub_eq_add_neg v y).symm
  rw [hadd]
  constructor
  · push_cast
    linarith
  · push_cast
    rw [add_div]
    linarith

theorem costRecords_near {rs : List Nat} {c : Cost} (hfit : nfit ≤ 2 ^ 52)
    (h : rs.foldlM (costRecord .exact corpus rec pp (freqsAt corpus rec pp nfit)) ⟨0, 0⟩ = .ok c) :
    Near (bits false corpus rec pp nfit rs) rs.length c.vb ∧
      Near (bits true corpus rec pp nfit rs) rs.length c.vd := by
  refine foldlM_inv (P := fun pre c => Near (bits false corpus rec pp nfit pre) pre.length c.vb ∧
    Near (bits true corpus rec pp nfit pre) pre.length c.vd) h ?_ ?_
  · have hzero : Near 0 0 0 := by
      constructor <;> norm_num
    exact ⟨hzero, hzero⟩
  · rintro pre r - c c' ⟨hvb, hvd⟩ hstep
    obtain ⟨b, hb, hstep⟩ := bind_eq_ok.1 hstep
    obtain ⟨lb, hlb, hstep⟩ := bind_eq_ok.1 hstep
    obtain ⟨d, hd, hstep⟩ := bind_eq_ok.1 hstep
    obtain ⟨ld, hld, hstep⟩ := bind_eq_ok.1 hstep
    obtain rfl := Except.ok.inj hstep
    obtain ⟨prev, hprev, hd⟩ := bind_eq_ok.1 hd
    obtain rfl := Except.ok.inj hd
    have hsym : schemaSymbol false corpus rec pp r = b := corpusAt_eq hb
    have hsym' : schemaSymbol true corpus rec pp r = b - prev := by
      rw [schemaSymbol, if_pos rfl, corpusAt_eq hb, corpusAt_eq hprev]
    rw [← hsym] at hlb
    rw [← hsym'] at hld
    rw [bits_concat, bits_concat, List.length_append, List.length_singleton]
    exact ⟨hvb.add hfit hlb, hvd.add hfit hld⟩

/-- What is chosen costs at most what the other kind of symbols does, and the digits left out. -/
theorem useDelta_cheapest (hfit : nfit ≤ 2 ^ 52) (hsome : 0 < (heldOut nfit nrec).length)
    (h : useDelta .exact corpus rec pp nfit nrec (freqsAt corpus rec pp nfit) = .ok delta) :
    bits delta corpus rec pp nfit (heldOut nfit nrec) ≤
      bits (!delta) corpus rec pp nfit (heldOut nfit nrec) +
        (heldOut nfit nrec).length / 2 ^ 32 := by
  obtain ⟨c, hc, h⟩ := bind_eq_ok.1 h
  obtain ⟨⟨hvb, hvb'⟩, hvd, hvd'⟩ := costRecords_near hfit hc
  have hdelta := Except.ok.inj h
  have hpos : 0 < nrec - if nfit < nrec then nfit else 1 := by
    rwa [heldOut, List.length_range'] at hsome
  rw [decide_eq_true hpos, Bool.true_and] at hdelta
  change bits false corpus rec pp nfit (heldOut nfit nrec) ≤ c.vb at hvb
  change (c.vb : ℝ) ≤ bits false corpus rec pp nfit (heldOut nfit nrec) +
    (heldOut nfit nrec).length / 2 ^ 32 at hvb'
  change bits true corpus rec pp nfit (heldOut nfit nrec) ≤ c.vd at hvd
  change (c.vd : ℝ) ≤ bits true corpus rec pp nfit (heldOut nfit nrec) +
    (heldOut nfit nrec).length / 2 ^ 32 at hvd'
  cases delta with
  | false =>
    have hle : (c.vb : ℝ) ≤ c.vd := by
      exact_mod_cast not_lt.1 (of_decide_eq_false hdelta)
    exact (hvb.trans hle).trans hvd'
  | true =>
    have hlt : (c.vd : ℝ) < c.vb := by
      exact_mod_cast of_decide_eq_true hdelta
    exact (hvd.trans hlt.le).trans hvb'

theorem heldOut_length_pos (h : 2 ≤ nrec) : 0 < (heldOut (fitRecords nrec) nrec).length := by
  rw [heldOut, List.length_range', fitRecords]
  split_ifs <;> omega

/-- What a kind of symbols costs on the records held out of a corpus. -/
noncomputable def heldOutBits (delta : Bool) (corpus : List UInt8) (rec pp : Nat) : ℝ :=
  bits delta corpus rec pp (fitRecords (corpus.length / rec))
    (heldOut (fitRecords (corpus.length / rec)) (corpus.length / rec))

/-- How many there are. -/
def heldOutCount (corpus : List UInt8) (rec : Nat) : Nat :=
  (heldOut (fitRecords (corpus.length / rec)) (corpus.length / rec)).length

/-- In exact arithmetic each byte of the record gets the kind of symbols that costs least on the
records held out, up to `2^-32` of a bit for each of them. -/
theorem buildSchema_cheapest (hrec : 1 ≤ rec ∧ rec ≤ schemaMax) (hlt : corpus.length < 2 ^ 64)
    (hfew : 2 ≤ corpus.length / rec) (hmany : corpus.length / rec ≤ 2 ^ 52) :
    ∃ sc, buildSchema .exact corpus rec hrec = .ok sc ∧ ∀ pp < rec, ∃ delta : Bool,
      sc.scModes pp = (if delta then 1 else 0) ∧
      heldOutBits delta corpus rec pp ≤
        heldOutBits (!delta) corpus rec pp + heldOutCount corpus rec / 2 ^ 32 := by
  obtain ⟨sc, hbuild⟩ := buildSchema_exact hrec hlt
  obtain ⟨-, hall⟩ := buildSchema_counts hmany hbuild
  have hfit : fitRecords (corpus.length / rec) ≤ 2 ^ 52 := by
    unfold fitRecords
    split_ifs <;> omega
  refine ⟨sc, hbuild, fun pp hpp => ?_⟩
  obtain ⟨delta, hmode, hchosen, -⟩ := hall pp hpp
  exact ⟨delta, hmode, useDelta_cheapest hfit (heldOut_length_pos hfew) hchosen⟩

theorem buildSchema_cheapest_counter : ∃ sc,
    buildSchema .exact [1, 2, 3, 4, 5] 1 (by decide) = .ok sc ∧ ∀ pp < 1, ∃ delta : Bool,
      sc.scModes pp = (if delta then 1 else 0) ∧
      heldOutBits delta [1, 2, 3, 4, 5] 1 pp ≤
        heldOutBits (!delta) [1, 2, 3, 4, 5] 1 pp + heldOutCount [1, 2, 3, 4, 5] 1 / 2 ^ 32 :=
  buildSchema_cheapest _ (by decide) (by decide) (by decide)

end Bcb.Prior
