import Bcb.Bt.Plain

namespace Bcb.Bt

open Lib RangeCoder

/-- What is known about a byte: for each order, where the last bytes have been met, how often, and
how often the byte came after them. -/
abbrev Grams := Nat → Option (UInt32 × UInt32)

def levelTerms (B : Build) (G : Grams) (len : Nat) (lv : BtLevel) : List (Int × Int) :=
  (scanOrder lv.dmin (min len lv.dmax)).filterMap fun n =>
    (G n).map fun x => countTerm B n x.1 x.2

def termsMean (B : Build) (terms : List (Int × Int)) : Int :=
  weightedSum B (maxL terms) terms / weightTotal B (maxL terms) terms

/-- What a level adds to the weighted probabilities and to the weights. -/
def levelStep (B : Build) (G : Grams) (len : Nat) (x : Int × Int) (lv : BtLevel) : Int × Int :=
  if levelTerms B G len lv = [] then x
  else (x.1 + lv.wint * termsMean B (levelTerms B G len lv), x.2 + lv.wint)

def gramMean (x : Int × Int) : Int := if 0 < x.2 then x.1 / x.2 else pscale / 256

def gramProb (B : Build) (G : Grams) (len : Nat) : Int :=
  min (max (gramMean (levels.foldl (levelStep B G len) (0, 0))) 1) pscale

def gramProbs (B : Build) (G : UInt8 → Grams) (len : Nat) : List Int :=
  if len = 0 then allBytes.map fun _ => (pscale / 256 : Int)
  else allBytes.map fun b => gramProb B (G b) len

theorem getD_map_allBytes {α : Type} (f : UInt8 → α) (b : UInt8) (d : α) :
    (allBytes.map f).getD b.toNat d = f b := by
  rw [allBytes, List.map_map, List.getD_eq_getElem?_getD, List.getElem?_map,
    List.getElem?_range b.toNat_lt]
  exact congrArg f UInt8.ofNat_toNat

/-- The share of `950 / 1000` of the scale, and an equal one of `50 / 1000`. -/
def gramWidth (scale : Nat) (s p : Int) : Nat :=
  (max (950 * scale * p / (1000 * s) + 50 * scale / (1000 * 256)) 1).toNat

def gramTable (B : Build) (G : UInt8 → Grams) (len scale : Nat) : Cum :=
  let ps := gramProbs B G len
  let ws := ps.map (gramWidth scale ps.sum)
  cumOf fun b => ws.getD b.toNat 0

/-- What the lookups of a reader find. -/
def readerGrams (B : Build) (r : BtV3Reader) (b : UInt8) : Grams := fun n =>
  (activeOf B r n).map fun x => (x.cc.totalFreq, actFreq x.chain b)

variable {B : Build} {r : BtV3Reader} {b : UInt8} {lv : BtLevel}

theorem activeOf_n {n : Nat} {x : Active} (h : activeOf B r n = some x) : x.n = n :=
  (activeOf_some h).1

theorem levelTerms_reader (B : Build) (r : BtV3Reader) (b : UInt8) (lv : BtLevel) :
    levelTerms B (readerGrams B r b) r.window.bytes.length lv =
      (levelActives B r lv).map (·.term B b) := by
  rw [levelTerms, levelActives, actives, List.map_filterMap]
  congr 1
  funext n
  cases h : activeOf B r n with
  | none => simp [readerGrams, h]
  | some x =>
    obtain rfl := activeOf_n h
    simp [readerGrams, h, Active.term]

theorem mapM_actTerm_eq {xs : List Active} (h : LevelOf xs) {terms : List (Int × Int)}
    (hterms : (xs.map (·.act B)).mapM (actTerm B true b) = .ok terms) :
    terms = xs.map (·.term B b) := by
  have hidx : ∀ x ∈ xs, IndexOk B x.cc.totalFreq (actFreq x.chain b) := by
    intro x hx
    obtain ⟨t, ht⟩ := mapM_mem hterms (List.mem_map_of_mem hx)
    by_contra hidx
    rw [actTerm_negative (Active.act_ok (h.n_le x hx) (h.total_pos x hx)) hidx] at ht
    cases ht
  rw [mapM_actTerm h hidx] at hterms
  exact (Except.ok.inj hterms).symm

theorem weigh_eq {terms : List (Int × Int)} (hok : ∀ t ∈ terms, TermOk t) (hne : terms ≠ [])
    (hlen : terms.length ≤ btMaxDepth) {o : Option Int} (h : weigh B true terms = .ok o) :
    o = some (termsMean B terms) ∧ 0 ≤ termsMean B terms := by
  have hsum : weightedSum B (maxL terms) terms < 2 ^ 63 := by
    by_contra hbig
    rw [weigh_overflow hok hne hlen (not_lt.1 hbig)] at h
    cases h
  simp only [btMaxDepth] at hlen
  have hnum := weightedSum_nonneg (B := B) (m := maxL terms) hok
  have hden := weightTotal_ge (B := B) hok hne
  have hfold := foldlM_weighTerm (B := B) hok (maxL_le hok hne) (fun _ => le_maxL)
    (le_refl 0)
    ⟨le_refl 0, by omega⟩ (by norm_num)
  rw [Int.zero_add, Int.zero_add, if_pos hsum] at hfold
  have hpos : 0 < weightTotal B (maxL terms) terms := by omega
  simp only [weigh, hfold, ok_bind, i64Div_of_pos hnum hpos, if_pos hpos] at h
  exact ⟨(Except.ok.inj h).symm, Int.ediv_nonneg hnum (by omega)⟩

theorem addMean_some {wint : Nat} {v : Int} {x y : Int × Int}
    (h : addMean wint (some v) x = .ok y) : y = (x.1 + wint * v, x.2 + wint) := by
  obtain ⟨u, hu, h⟩ := bind_eq_ok.1 h
  obtain rfl := (i64_eq_ok hu).1
  obtain ⟨ws, hws, h⟩ := bind_eq_ok.1 h
  obtain rfl := (i64_eq_ok hws).1
  obtain ⟨wt, hwt, h⟩ := bind_eq_ok.1 h
  obtain rfl := (i64_eq_ok hwt).1
  exact (Except.ok.inj h).symm

theorem plainLevel_eq (hlv : lv ∈ levels) {x y : Int × Int}
    (h : plainLevel B true r b x lv = .ok y) :
    y = levelStep B (readerGrams B r b) r.window.bytes.length x lv ∧
      (0 ≤ x.1 → 0 ≤ y.1) := by
  have hlevel := levelOf_levelActives (B := B) (r := r) hlv
  obtain ⟨⟨acts, obs⟩, hscan, h⟩ := bind_eq_ok.1 h
  obtain ⟨rfl, -, -⟩ := scanLevel_ok (fun n hn => scanOrder_le hlv hn) hscan
  rw [List.nil_append] at h
  change plainCombine B true lv.wint ((levelActives B r lv).map (·.act B)) b x = .ok y at h
  rw [levelStep, levelTerms_reader]
  unfold plainCombine at h
  by_cases hnil : levelActives B r lv = []
  · rw [hnil, List.map_nil, if_pos rfl] at h
    obtain rfl := Except.ok.inj h
    rw [hnil, List.map_nil, if_pos rfl]
    exact ⟨rfl, id⟩
  · rw [if_neg (by simpa using hnil)] at h ⊢
    obtain ⟨terms, hterms, h⟩ := bind_eq_ok.1 h
    obtain ⟨mean, hmean, h⟩ := bind_eq_ok.1 h
    obtain rfl := mapM_actTerm_eq hlevel hterms
    obtain ⟨rfl, h0⟩ := weigh_eq (hlevel.terms_ok b) (by simpa using hnil)
      (by rw [List.length_map]; exact hlevel.length_le) hmean
    obtain rfl := addMean_some h
    exact ⟨rfl, fun hx => add_nonneg hx (Int.mul_nonneg (by omega) h0)⟩

theorem foldlM_plainLevel_eq {lvs : List BtLevel} (hlvs : ∀ lv ∈ lvs, lv ∈ levels)
    {x y : Int × Int} (hx : 0 ≤ x.1) (h : lvs.foldlM (plainLevel B true r b) x = .ok y) :
    y = lvs.foldl (levelStep B (readerGrams B r b) r.window.bytes.length) x ∧ 0 ≤ y.1 := by
  induction lvs generalizing x with
  | nil =>
    obtain rfl := Except.ok.inj h
    exact ⟨rfl, hx⟩
  | cons lv lvs ih =>
    rw [List.foldlM_cons] at h
    obtain ⟨x', hx', h⟩ := bind_eq_ok.1 h
    obtain ⟨rfl, hnn⟩ := plainLevel_eq (hlvs lv List.mem_cons_self) hx'
    exact ih (fun lv hlv => hlvs lv (List.mem_cons_of_mem _ hlv)) (hnn hx) h

theorem clampProb_eq {x : Int × Int} (hx : 0 ≤ x.1) {q : Int} (h : clampProb x = .ok q) :
    q = min (max (gramMean x) 1) pscale := by
  obtain ⟨p, hp, h⟩ := bind_eq_ok.1 h
  have hmean : p = gramMean x := by
    unfold meanProb at hp
    unfold gramMean
    split_ifs at hp ⊢ with hpos
    · rw [i64Div_of_pos hx hpos] at hp
      exact (Except.ok.inj hp).symm
    · exact (Except.ok.inj hp).symm
  rw [← hmean]
  exact (Except.ok.inj h).symm

theorem plainProb_eq {q : Int} (h : plainProb B true r b = .ok q) :
    q = gramProb B (readerGrams B r b) r.window.bytes.length := by
  obtain ⟨x, hx, h⟩ := bind_eq_ok.1 h
  obtain ⟨rfl, h0⟩ := foldlM_plainLevel_eq (fun lv hlv => hlv) le_rfl hx
  exact clampProb_eq h0 h

theorem mapM_eq_of_forall {α β : Type} {f : α → Outcome β} {g : α → β} {l : List α} {t : List β}
    (h : l.mapM f = .ok t) (hf : ∀ a ∈ l, ∀ b, f a = .ok b → b = g a) : t = l.map g := by
  induction l generalizing t with
  | nil => exact (Except.ok.inj h).symm
  | cons a l ih =>
    obtain ⟨b, u, hb, hu, rfl⟩ := mapM_cons_ok h
    rw [List.map_cons, ← ih hu fun x hx => hf x (List.mem_cons_of_mem a hx),
      hf a List.mem_cons_self b hb]

theorem probs_eq {ps : List Int} (h : probs B true r = .ok ps) :
    ps = gramProbs B (readerGrams B r) r.window.bytes.length := by
  have hplain := probs_plain h
  unfold plainProbs at hplain
  unfold gramProbs
  by_cases hempty : r.window.bytes = []
  · rw [if_pos hempty] at hplain
    rw [if_pos (List.length_eq_zero_iff.2 hempty)]
    exact (Except.ok.inj hplain).symm
  · rw [if_neg hempty] at hplain
    rw [if_neg fun h0 => hempty (List.length_eq_zero_iff.1 h0)]
    exact mapM_eq_of_forall hplain fun b _ q hq => plainProb_eq hq

theorem scaleProb_eq {s q : Int} (hq : 1 ≤ q) (hs : q ≤ s) {w : Nat}
    (h : scaleProb rcScale s q = .ok w) : w = gramWidth rcScale s q := by
  obtain ⟨k, hk, h⟩ := bind_eq_ok.1 h
  obtain ⟨rfl, -⟩ := i64_eq_ok hk
  obtain ⟨num, hnum, h⟩ := bind_eq_ok.1 h
  obtain ⟨rfl, -⟩ := i64_eq_ok hnum
  obtain ⟨t, ht, h⟩ := bind_eq_ok.1 h
  obtain ⟨rfl, -⟩ := i64_eq_ok ht
  obtain ⟨v, hv, h⟩ := bind_eq_ok.1 h
  have hpos : (0 : Int) < 1000 * s := by omega
  rw [i64Div_of_pos (by simp only [rcScale]; omega) hpos] at hv
  obtain rfl := Except.ok.inj hv
  obtain ⟨u, hu, h⟩ := bind_eq_ok.1 h
  obtain ⟨rfl, -⟩ := i64_eq_ok hu
  have hw := Except.ok.inj h
  rw [← hw, gramWidth]
  apply Nat.mod_eq_of_lt
  have hlt : 950 * (rcScale : Int) * q / (1000 * s) ≤ 950 * 2 ^ 14 := by
    apply Int.ediv_le_of_le_mul hpos
    simp only [rcScale]
    push_cast
    nlinarith
  simp only [rcScale] at hlt ⊢
  omega

theorem btV3DistributionR_eq {cum : Cum} (h : btV3DistributionR B true r rcScale = .ok cum) :
    cum = gramTable B (readerGrams B r) r.window.bytes.length rcScale := by
  obtain ⟨ps, hps, h⟩ := bind_eq_ok.1 h
  obtain ⟨s, hs, h⟩ := bind_eq_ok.1 h
  obtain ⟨hlen, hmem⟩ := probs_spec hps
  have hsum := sumM_eq hs
  rw [Int.zero_add] at hsum
  subst hsum
  have hle : ∀ q ∈ ps, q ≤ ps.sum := fun q hq =>
    le_sum_of_mem (fun q hq => (hmem q hq).1) hq
  obtain ⟨q, hq⟩ := List.exists_mem_of_length_pos (hlen ▸ (by decide : 0 < 256))
  have hpos : ¬ ps.sum ≤ 0 := by
    have h1 := (hmem q hq).1
    have hsum := hle q hq
    omega
  rw [if_neg hpos] at h
  obtain ⟨ws, hws, h⟩ := bind_eq_ok.1 h
  have hwidths : ws = ps.map (gramWidth rcScale ps.sum) := by
    exact mapM_eq_of_forall hws fun q hq w hw => scaleProb_eq (hmem q hq).1 (hle q hq) hw
  rw [gramTable, ← probs_eq hps, ← hwidths]
  exact (Except.ok.inj h).symm

end Bcb.Bt
