import Bcb.Lib.Histogram
import Bcb.Prior.Tables

namespace Bcb.Prior

open Lib Bt RangeCoder

/-- The byte at `pp` of record `r`, or its difference to the one before. -/
def schemaSymbol (delta : Bool) (corpus : List UInt8) (rec pp r : Nat) : UInt8 :=
  if delta then corpus.getD (r * rec + pp) 0 - corpus.getD ((r - 1) * rec + pp) 0
  else corpus.getD (r * rec + pp) 0

/-- The first record with such a symbol. -/
def firstOf (delta : Bool) : Nat := if delta then 1 else 0

/-- How often each symbol comes among the first `n` records. -/
def schemaCount (delta : Bool) (corpus : List UInt8) (rec pp n : Nat) : UInt8 → Nat :=
  Histogram.count (schemaSymbol delta corpus rec pp) (firstOf delta) n

def freqsAt (corpus : List UInt8) (rec pp n : Nat) : Freqs where
  bf b := schemaCount false corpus rec pp n b
  df d := schemaCount true corpus rec pp n d

variable {D : Doubles} {corpus : List UInt8} {rec pp n : Nat}

theorem add_natCast {a b : Nat} (h : a + b ≤ 2 ^ 52) : D.add a b = ((a + b : Nat) : ℚ) := by
  have hround := D.add_rounds a b
  have hmem := D.natCast_mem h
  rw [← Nat.cast_add] at hround
  exact le_antisymm (hround.le _ hmem le_rfl) (hround.ge _ hmem le_rfl)

theorem corpusAt_eq {i : Nat} {b : UInt8} (h : corpusAt corpus i = .ok b) :
    corpus.getD i 0 = b := by
  unfold corpusAt at h
  rw [List.getD_eq_getElem?_getD]
  cases hget : corpus[i]? with
  | none =>
    rw [hget] at h
    cases h
  | some b' =>
    rw [hget] at h
    exact Except.ok.inj h

theorem schemaCount_le (delta : Bool) (corpus : List UInt8) (rec pp n : Nat) (b : UInt8) :
    schemaCount delta corpus rec pp n b ≤ n :=
  (Histogram.count_le _ _ _ _).trans (Nat.sub_le _ _)

theorem schemaCount_succ (D : Doubles) (delta : Bool) (corpus : List UInt8) (rec pp : Nat)
    (h : firstOf delta ≤ n) (hn : n + 1 ≤ 2 ^ 52) :
    (fun b => (schemaCount delta corpus rec pp (n + 1) b : ℚ)) =
      Function.update (fun b => (schemaCount delta corpus rec pp n b : ℚ))
        (schemaSymbol delta corpus rec pp n)
        (D.add (schemaCount delta corpus rec pp n (schemaSymbol delta corpus rec pp n)) 1) := by
  have hone : (1 : ℚ) = (1 : Nat) := Nat.cast_one.symm
  have hle := schemaCount_le delta corpus rec pp n (schemaSymbol delta corpus rec pp n)
  rw [hone, add_natCast (by omega)]
  funext b
  rw [schemaCount, Histogram.count_succ h, Function.update_apply, Function.update_apply]
  split_ifs
  · rfl
  · rfl

theorem schemaCount_first (corpus : List UInt8) (rec pp : Nat) :
    schemaCount true corpus rec pp 1 = schemaCount true corpus rec pp 0 := by
  have hone : 1 ≤ firstOf true := le_rfl
  rw [schemaCount, schemaCount, Histogram.count_empty (Nat.zero_le _),
    Histogram.count_empty hone]

theorem countRecord_freqs {f' : Freqs} (hn : n + 1 ≤ 2 ^ 52)
    (h : countRecord D corpus rec pp (freqsAt corpus rec pp n) n = .ok f') :
    f' = freqsAt corpus rec pp (n + 1) := by
  obtain ⟨b, hb, h⟩ := bind_eq_ok.1 h
  have hsym : schemaSymbol false corpus rec pp n = b := corpusAt_eq hb
  have hbf := schemaCount_succ D false corpus rec pp (Nat.zero_le n) hn
  rw [hsym] at hbf
  dsimp only at h
  split_ifs at h with hpos
  · obtain ⟨d, hd, h⟩ := bind_eq_ok.1 h
    obtain ⟨prev, hprev, hd⟩ := bind_eq_ok.1 hd
    obtain rfl := Except.ok.inj hd
    obtain rfl := Except.ok.inj h
    have hsym' : schemaSymbol true corpus rec pp n = b - prev := by
      rw [schemaSymbol, if_pos rfl, corpusAt_eq hb, corpusAt_eq hprev]
    have hdf := schemaCount_succ D true corpus rec pp hpos hn
    rw [hsym'] at hdf
    exact congrArg₂ Freqs.mk hbf.symm hdf.symm
  · obtain rfl : n = 0 := Nat.eq_zero_of_not_pos hpos
    obtain rfl := Except.ok.inj h
    have hdf : (fun d => (schemaCount true corpus rec pp 0 d : ℚ)) =
        fun d => (schemaCount true corpus rec pp 1 d : ℚ) := by
      rw [schemaCount_first]
    exact congrArg₂ Freqs.mk hbf.symm hdf

theorem countRecords_freqs {lo hi : Nat} {f' : Freqs} (hle : lo ≤ hi) (hhi : hi ≤ 2 ^ 52)
    (h : countRecords D corpus rec pp lo hi (freqsAt corpus rec pp lo) = .ok f') :
    f' = freqsAt corpus rec pp hi := by
  obtain ⟨k, rfl⟩ := Nat.exists_eq_add_of_le hle
  rw [countRecords, Nat.add_sub_cancel_left] at h
  induction k generalizing lo with
  | zero => exact (Except.ok.inj h).symm
  | succ k ih =>
    rw [List.range'_succ, List.foldlM_cons] at h
    obtain ⟨f, hf, h⟩ := bind_eq_ok.1 h
    obtain rfl := countRecord_freqs (by omega) hf
    have hnext := ih (Nat.le_add_right _ _) (by omega) h
    rwa [Nat.add_right_comm, Nat.add_assoc] at hnext

theorem widthSum_schemaCount (delta : Bool) (corpus : List UInt8) (rec pp n : Nat) :
    widthSum (schemaCount delta corpus rec pp n) 256 = n - firstOf delta := by
  induction n with
  | zero =>
    rw [schemaCount, Histogram.count_empty (Nat.zero_le _), Nat.zero_sub]
    exact Finset.sum_const_zero
  | succ n ih =>
    by_cases h : firstOf delta ≤ n
    · have hupdate := widthSum_update (schemaCount delta corpus rec pp n)
        (schemaSymbol delta corpus rec pp n)
        (schemaCount delta corpus rec pp n (schemaSymbol delta corpus rec pp n) + 1)
      have hsucc : schemaCount delta corpus rec pp (n + 1) = _ := Histogram.count_succ h
      rw [hsucc, Nat.succ_sub h]
      simp only [schemaCount] at hupdate ih
      omega
    · have hempty : schemaCount delta corpus rec pp (n + 1) = fun _ => 0 :=
        Histogram.count_empty (Nat.not_le.1 h)
      rw [hempty, Nat.sub_eq_zero_of_le (Nat.not_le.1 h)]
      exact Finset.sum_const_zero

theorem sumDoubles_natCast {c : UInt8 → Nat} (h : widthSum c 256 ≤ 2 ^ 52) :
    sumDoubles D (fun b => (c b : ℚ)) = widthSum c 256 := by
  have hrun : ∀ m ≤ 256, (List.range m).foldl
      (fun sum b => D.add sum ((c (UInt8.ofNat b) : ℚ))) 0 = widthSum c m := by
    intro m
    induction m with
    | zero => exact fun _ => Nat.cast_zero.symm
    | succ m ih =>
      intro hm
      have hle := (widthSum_mono c hm).trans h
      rw [widthSum_succ] at hle ⊢
      rw [List.range_succ, List.foldl_append, ih (Nat.le_of_succ_le hm), List.foldl_cons,
        List.foldl_nil, add_natCast hle]
  exact hrun 256 le_rfl

/-- What one byte of a record is given: the cheaper of the two kinds of symbols, and its counts. -/
structure PosOf (D : Doubles) (corpus : List UInt8) (rec pp nfit nrec : Nat) (delta : Bool)
    (row : UInt8 → Nat) : Prop where
  chosen : useDelta D corpus rec pp nfit nrec (freqsAt corpus rec pp nfit) = .ok delta
  counts : lmQuantize D .wrapping (fun b => (schemaCount delta corpus rec pp nrec b : ℚ))
    (nrec - firstOf delta : Nat) rcScale = .ok row

theorem schemaPos_counts {nfit nrec : Nat} {x : Bool × (UInt8 → Nat)} (hfit : nfit ≤ nrec)
    (hnrec : nrec ≤ 2 ^ 52) (h : schemaPos D corpus rec nfit nrec pp = .ok x) :
    PosOf D corpus rec pp nfit nrec x.1 x.2 := by
  obtain ⟨f, hf, h⟩ := bind_eq_ok.1 h
  obtain ⟨delta, hdelta, h⟩ := bind_eq_ok.1 h
  obtain ⟨f', hf', h⟩ := bind_eq_ok.1 h
  obtain ⟨w, hw, h⟩ := bind_eq_ok.1 h
  obtain rfl := Except.ok.inj h
  have hzero : (⟨fun _ => 0, fun _ => 0⟩ : Freqs) = freqsAt corpus rec pp 0 := by
    simp only [freqsAt, schemaCount, Histogram.count_empty (Nat.zero_le _), Nat.cast_zero]
  rw [hzero] at hf
  obtain rfl := countRecords_freqs (Nat.zero_le _) (hfit.trans hnrec) hf
  obtain rfl := countRecords_freqs hfit hnrec hf'
  have hsrc : (if delta then (freqsAt corpus rec pp nrec).df else (freqsAt corpus rec pp nrec).bf) =
      fun b => (schemaCount delta corpus rec pp nrec b : ℚ) := by
    cases delta <;> rfl
  have htotal := widthSum_schemaCount delta corpus rec pp nrec
  rw [hsrc, schemaRow, sumDoubles_natCast (by omega), htotal] at hw
  exact ⟨hdelta, hw⟩

/-- The number of records that the choice is made from. -/
def fitRecords (nrec : Nat) : Nat := if 5 ≤ nrec then nrec * 4 / 5 else nrec

theorem buildSchema_counts {hrec : 1 ≤ rec ∧ rec ≤ schemaMax} {sc : ScTables}
    (hnrec : corpus.length / rec ≤ 2 ^ 52) (h : buildSchema D corpus rec hrec = .ok sc) :
    sc.scRec = rec ∧ ∀ pp < rec, ∃ delta, sc.scModes pp = (if delta then 1 else 0) ∧
      PosOf D corpus rec pp (fitRecords (corpus.length / rec)) (corpus.length / rec) delta
        fun b => (sc.scCum pp b).toNat := by
  have hfit : fitRecords (corpus.length / rec) ≤ corpus.length / rec := by
    unfold fitRecords
    split_ifs <;> omega
  obtain ⟨rows, hrows, h⟩ := bind_eq_ok.1 h
  obtain rfl := Except.ok.inj h
  refine ⟨rfl, fun pp hpp => ?_⟩
  obtain ⟨x, hx, hget⟩ := mapM_getElem hrows (List.getElem?_range hpp)
  have hpos := schemaPos_counts hfit hnrec hx
  have hstored : (fun b => (UInt16.ofNat (x.2 b)).toNat) = x.2 :=
    funext (schemaPos_row hx).stored
  refine ⟨x.1, ?_, ?_⟩
  · simp only [List.getD_eq_getElem?_getD, List.getElem?_map, hget, Option.map_some,
      Option.getD_some]
  · simp only [List.getD_eq_getElem?_getD, List.getElem?_map, hget, Option.map_some,
      Option.getD_some, hstored]
    exact hpos

end Bcb.Prior
