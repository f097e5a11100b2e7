import Bcb.Bt.Level
import Bcb.Bt.Widths

/-! `bt_v3_distribution_r` divides by zero, indexes outside its tables or overflows exactly
where the counts of some level are not ones its arithmetic can stand. -/

namespace Bcb.Bt

open Lib RangeCoder

variable {B : Build} {r : BtV3Reader} {s : Sums} {K : Int} {wint : Nat}

/-- The sums of all bytes are within `K` of zero. -/
def Bounded (K : Int) (s : Sums) : Prop :=
  ∀ b, (-K ≤ (s b).1 ∧ (s b).1 ≤ K) ∧ -K ≤ (s b).2 ∧ (s b).2 ≤ K

/-- A weighted average, `W*v`, is below this. -/
def maxStep : Int := 2 ^ 44

theorem Bounded.mono {K' : Int} (h : Bounded K s) (hle : K ≤ K') : Bounded K' s := by
  intro b
  obtain ⟨h1, h2⟩ := h b
  omega

theorem addAt_ok (h : Bounded K s) (b : UInt8) {x y : Int} (hx : -maxStep ≤ x ∧ x ≤ maxStep)
    (hy : -maxStep ≤ y ∧ y ≤ maxStep) (hK : K + maxStep < 2 ^ 63) :
    ∃ s', addAt b x y s = .ok s' ∧ Bounded (K + maxStep) s' := by
  obtain ⟨h1, h2⟩ := h b
  have hws : i64 ((s b).1 + x) = .ok ((s b).1 + x) := i64_ok (by omega) (by omega)
  have hwt : i64 ((s b).2 + y) = .ok ((s b).2 + y) := i64_ok (by omega) (by omega)
  refine ⟨Function.update s b ((s b).1 + x, (s b).2 + y), ?_, ?_⟩
  · simp only [addAt, hws, hwt, ok_bind]
    rfl
  · intro b'
    by_cases hb : b' = b
    · rw [hb, Function.update_self]
      dsimp only
      omega
    · rw [Function.update_of_ne hb]
      obtain ⟨h1, h2⟩ := h b'
      simp only [maxStep] at *
      omega

theorem foldlM_bounded {β : Type} {f : Sums → β → Outcome Sums} {l : List β} {k : Nat}
    (hf : ∀ x ∈ l, ∀ s K, Bounded K s → K + k * maxStep < 2 ^ 63 →
      ∃ s', f s x = .ok s' ∧ Bounded (K + k * maxStep) s')
    (h : Bounded K s) (hK : K + l.length * (k * maxStep) < 2 ^ 63) :
    ∃ s', l.foldlM f s = .ok s' ∧ Bounded (K + l.length * (k * maxStep)) s' := by
  have hpos : 0 ≤ (k : Int) * maxStep := by
    simp only [maxStep]
    positivity
  induction l generalizing s K with
  | nil => exact ⟨s, rfl, h.mono (by simp)⟩
  | cons x l ih =>
    have hlen : ((x :: l).length : Int) * (k * maxStep) = k * maxStep + l.length * (k * maxStep) := by
      rw [List.length_cons]
      push_cast
      ring
    have hrest : 0 ≤ (l.length : Int) * (k * maxStep) := Int.mul_nonneg (by omega) hpos
    rw [hlen] at hK ⊢
    obtain ⟨s1, hs1, hb1⟩ := hf x List.mem_cons_self s K h (by omega)
    obtain ⟨s2, hs2, hb2⟩ := ih (fun y hy => hf y (List.mem_cons_of_mem x hy)) hb1 (by omega)
    refine ⟨s2, ?_, hb2.mono (by omega)⟩
    rw [List.foldlM_cons, hs1, ok_bind, hs2]

theorem contribution_ok (hw : wint ≤ 512) {v : Int} (h0 : 0 ≤ v) (hv : v < 2 ^ 35) :
    i64 (wint * v) = .ok (wint * v) ∧ 0 ≤ (wint : Int) * v ∧ (wint : Int) * v ≤ maxStep := by
  have hnn : 0 ≤ (wint : Int) * v := Int.mul_nonneg (by omega) h0
  have hle : (wint : Int) * v ≤ 512 * 2 ^ 35 :=
    mul_le_mul (by omega) hv.le h0 (by norm_num)
  have hstep : (wint : Int) * v ≤ maxStep := by
    simp only [maxStep]
    omega
  exact ⟨i64_small hnn (by simp only [maxStep] at hstep; omega), hnn, hstep⟩

theorem wint_le_maxStep (hw : wint ≤ 512) : (wint : Int) ≤ maxStep := by
  simp only [maxStep]
  omega

theorem addDefault_ok (hw : wint ≤ 512) {v : Int} (h0 : 0 ≤ v) (hv : v < 2 ^ 35)
    (h : Bounded K s) (hK : K + 256 * maxStep < 2 ^ 63) :
    ∃ s', addDefault wint (some v) s = .ok s' ∧ Bounded (K + 256 * maxStep) s' := by
  obtain ⟨hx, hnn, hle⟩ := contribution_ok hw h0 hv
  have hwle := wint_le_maxStep hw
  have hfold := foldlM_bounded (f := fun s b => addAt b (wint * v) wint s) (l := allBytes) (k := 1)
    (fun b _ s K hs hK => by
      have hone : K + (1 : Nat) * maxStep = K + maxStep := by push_cast; ring
      rw [hone] at hK ⊢
      exact addAt_ok hs b (by omega) (by omega) hK) h
  rw [allBytes_length] at hfold
  have hcount : ((256 : Nat) : Int) * ((1 : Nat) * maxStep) = 256 * maxStep := by push_cast; ring
  rw [hcount] at hfold
  obtain ⟨s', hs', hb⟩ := hfold hK
  refine ⟨s', ?_, hb⟩
  simp only [addDefault, hx, ok_bind]
  exact hs'

theorem observed_ok (hw : wint ≤ 512) {acts : List Act} {b : UInt8} {terms : List (Int × Int)}
    (hterms : acts.mapM (actTerm B true b) = .ok terms) {u v : Int}
    (hweigh : weigh B true terms = .ok (some u)) (hu : 0 ≤ u ∧ u < 2 ^ 35)
    (hv : 0 ≤ v ∧ v < 2 ^ 35) (h : Bounded K s) (hK : K + (2 : Nat) * maxStep < 2 ^ 63) :
    ∃ s', observed B true wint acts (some v) s b = .ok s' ∧
      Bounded (K + (2 : Nat) * maxStep) s' := by
  obtain ⟨hx, hxnn, hxle⟩ := contribution_ok hw hv.1 hv.2
  obtain ⟨hy, hynn, hyle⟩ := contribution_ok hw hu.1 hu.2
  have hwle := wint_le_maxStep hw
  have hmax : 0 ≤ maxStep := by simp [maxStep]
  have htwo : K + (2 : Nat) * maxStep = K + maxStep + maxStep := by push_cast; ring
  rw [htwo] at hK ⊢
  obtain ⟨s1, hs1, hb1⟩ := addAt_ok (x := -(wint * v)) (y := -wint) h b (by omega) (by omega)
    (by omega)
  obtain ⟨s2, hs2, hb2⟩ := addAt_ok (x := wint * u) (y := wint) hb1 b (by omega) (by omega) hK
  refine ⟨s2, ?_, hb2⟩
  simp only [observed, hterms, hweigh, dropDefault, addOwn, hx, hy, hs1, ok_bind]
  exact hs2

section Level

variable {xs : List Active}

/-- The active contexts of a level, at most 24 of them. -/
structure LevelOf (xs : List Active) : Prop where
  n_le : ∀ x ∈ xs, x.n ≤ btMaxDepth
  total_pos : ∀ x ∈ xs, x.cc.totalFreq.toNat ≠ 0
  length_le : xs.length ≤ btMaxDepth

theorem LevelOf.terms_ok (h : LevelOf xs) (b : UInt8) :
    ∀ t ∈ xs.map (·.term B b), TermOk t := by
  intro t ht
  obtain ⟨x, hx, rfl⟩ := List.mem_map.1 ht
  exact countTerm_ok (h.n_le x hx) _ _

theorem mapM_actTerm (h : LevelOf xs) {b : UInt8}
    (hidx : ∀ x ∈ xs, IndexOk B x.cc.totalFreq (actFreq x.chain b)) :
    (xs.map (·.act B)).mapM (actTerm B true b) = .ok (xs.map (·.term B b)) := by
  have hterm : ∀ x ∈ xs, actTerm B true b (x.act B) = .ok (x.term B b) := fun x hx =>
    actTerm_ok (Active.act_ok (h.n_le x hx) (h.total_pos x hx)) (hidx x hx)
  rw [List.mapM_map]
  exact mapM_eq_map hterm

theorem weigh_default (h : LevelOf xs) (hne : xs ≠ []) :
    ∃ v, weigh B true ((xs.map (·.act B)).map fun a => (a.l0, a.p0)) = .ok (some v) ∧
      0 ≤ v ∧ v < 2 ^ 35 := by
  rw [List.map_map]
  have hmem : ∀ t ∈ xs.map ((fun a => (a.l0, a.p0)) ∘ (·.act B)),
      TermOk t ∧ t.2 ≤ 2 ^ 28 := by
    intro t ht
    obtain ⟨x, hx, rfl⟩ := List.mem_map.1 ht
    exact ⟨defaultTerm_ok (h.n_le x hx) x.cc.totalFreq, defaultTerm_p_le x.n x.cc.totalFreq⟩
  have hlen := h.length_le
  simp only [btMaxDepth] at hlen
  apply weigh_ok (fun t ht => (hmem t ht).1)
  · simpa using hne
  · rw [List.length_map]
    exact h.length_le
  · have hle := weightedSum_of_le (B := B)
      (m := maxL (xs.map ((fun a => (a.l0, a.p0)) ∘ (·.act B))))
      fun t ht => ⟨(hmem t ht).1.p_nonneg, (hmem t ht).2⟩
    rw [List.length_map] at hle
    omega

theorem combineLevel_ok (hw : wint ≤ 512) (h : LevelOf xs) (hc : CountsOk B xs)
    (hb : Bounded K s) (hK : K + 768 * maxStep < 2 ^ 63) :
    ∃ s', combineLevel B true wint (xs.map (·.act B)) (observedIn xs) s = .ok s' ∧
      Bounded (K + 768 * maxStep) s' := by
  have hmax : 0 ≤ maxStep := by simp [maxStep]
  by_cases hne : xs = []
  · subst hne
    exact ⟨s, rfl, hb.mono (by omega)⟩
  · obtain ⟨v, hv, hvb⟩ := weigh_default (B := B) h hne
    obtain ⟨s1, hs1, hb1⟩ := addDefault_ok hw hvb.1 hvb.2 hb (by omega)
    have hlen := observedIn_length xs
    have hsteps : ((observedIn xs).length : Int) * ((2 : Nat) * maxStep) ≤ 512 * maxStep := by
      have hle : ((observedIn xs).length : Int) * ((2 : Nat) * maxStep) ≤
          256 * ((2 : Nat) * maxStep) :=
        Int.mul_le_mul_of_nonneg_right (by omega) (by push_cast; omega)
      refine hle.trans (le_of_eq ?_)
      push_cast
      ring
    obtain ⟨s2, hs2, hb2⟩ := foldlM_bounded (k := 2)
      (f := observed B true wint (xs.map (·.act B)) (some v)) (l := observedIn xs)
      (fun b hb s K hs hK => by
        have hobs := mem_observedIn.1 hb
        have hterms := mapM_actTerm (B := B) h (hc.index b hobs)
        obtain ⟨u, hu, hub⟩ := weigh_ok (h.terms_ok (B := B) b) (by simpa using hne)
          (by rw [List.length_map]; exact h.length_le) (hc.sum b hobs)
        exact observed_ok hw hterms hu hub hvb hs hK) hb1 (by omega)
    refine ⟨s2, ?_, hb2.mono (by omega)⟩
    rw [combineLevel, if_neg (by simpa using hne), hv, ok_bind, hs1, ok_bind, hs2]

/-- Counts that cannot go wrong: no total wraps to 0 with the 256 that are added, and no byte has
been counted 128 times as often as its context, the contexts sharing this among them. -/
structure CountsFit (xs : List Active) : Prop where
  total : ∀ x ∈ xs, x.cc.totalFreq.toNat + 256 ≠ 2 ^ 32
  freq : ∀ x ∈ xs, ∀ b, xs.length * (actFreq x.chain b).toNat < 128 * x.cc.totalFreq.toNat

@[simp]
theorem spread_ne_zero {total : UInt32} : spread total ≠ 0 ↔ total.toNat + 256 ≠ 2 ^ 32 := by
  have hlt := total.toNat_lt
  have hadd : spread total = (total.toNat + 256) % 2 ^ 32 := by
    rw [spread, UInt32.toNat_add]
    rfl
  omega

theorem CountsFit.mul_div_lt (hc : CountsFit xs) (h : LevelOf xs) {x : Active} (hx : x ∈ xs)
    (b : UInt8) {K : Nat} (hK : 0 < K) :
    xs.length * ((actFreq x.chain b).toNat * K / x.cc.totalFreq.toNat) < 128 * K := by
  have hpos := Nat.pos_of_ne_zero (h.total_pos x hx)
  apply (Nat.mul_div_le_mul_div_assoc _ _ _).trans_lt
  rw [Nat.div_lt_iff_lt_mul hpos]
  calc xs.length * ((actFreq x.chain b).toNat * K)
      = xs.length * (actFreq x.chain b).toNat * K := (Nat.mul_assoc _ _ _).symm
    _ < 128 * x.cc.totalFreq.toNat * K := Nat.mul_lt_mul_of_pos_right (hc.freq x hx b) hK
    _ = 128 * K * x.cc.totalFreq.toNat := by ring

theorem CountsFit.mul_term_le (hc : CountsFit xs) (h : LevelOf xs) {x : Active} (hx : x ∈ xs)
    (b : UInt8) : (xs.length : Int) * (x.term B b).2 ≤ 2 ^ 35 - 1 := by
  have hlen := h.length_le
  simp only [btMaxDepth] at hlen
  unfold Active.term countTerm
  split_ifs
  · have hle := defaultTerm_p_le (B := B) x.n x.cc.totalFreq
    have hmul : (xs.length : Int) * (defaultTerm B x.n x.cc.totalFreq).2 ≤ xs.length * 2 ^ 28 :=
      Int.mul_le_mul_of_nonneg_left hle (by omega)
    omega
  · have hlt := Int.ofNat_lt.2 (hc.mul_div_lt h hx b (K := pscale) (by decide))
    rw [Int.natCast_mul] at hlt
    simp only [pscale] at hlt ⊢
    omega

theorem CountsFit.countsOk (hc : CountsFit xs) (h : LevelOf xs) : CountsOk B xs := by
  refine ⟨fun x hx => spread_ne_zero.2 (hc.total x hx), ?_, ?_⟩
  · intro b _ x hx _
    have hlt := (Nat.le_mul_of_pos_left _ (List.length_pos_of_mem hx)).trans_lt
      (hc.mul_div_lt h hx b B.pres_pos)
    have hpres := B.pres_le
    rw [Nat.mod_eq_of_lt (by omega)]
    omega
  · rintro b ⟨x₀, hx₀, -⟩
    have hp : ∀ t ∈ xs.map (·.term B b), 0 ≤ t.2 ∧ (xs.length : Int) * t.2 ≤ 2 ^ 35 - 1 := by
      intro t ht
      refine ⟨(h.terms_ok b t ht).p_nonneg, ?_⟩
      obtain ⟨x, hx, rfl⟩ := List.mem_map.1 ht
      exact hc.mul_term_le h hx b
    have hsum := mul_weightedSum_le (B := B) (m := maxL (xs.map (·.term B b))) hp
    rw [List.length_map] at hsum
    have hlen := List.length_pos_of_mem hx₀
    have hle := le_of_mul_le_mul_left hsum (by omega)
    omega

theorem countsFit_of_freq_le (h : LevelOf xs)
    (hcount : ∀ x ∈ xs, x.cc.totalFreq.toNat + 256 < 2 ^ 32 ∧
      ∀ b, (actFreq x.chain b).toNat ≤ x.cc.totalFreq.toNat) : CountsFit xs := by
  have hlen := h.length_le
  simp only [btMaxDepth] at hlen
  refine ⟨fun x hx => (hcount x hx).1.ne, ?_⟩
  intro x hx b
  have hpos := h.total_pos x hx
  calc xs.length * (actFreq x.chain b).toNat ≤ 24 * x.cc.totalFreq.toNat :=
        Nat.mul_le_mul hlen ((hcount x hx).2 b)
    _ < 128 * x.cc.totalFreq.toNat := by omega

theorem exists_of_actFreq_ne_zero {x : Active} {b : UInt8} (h : actFreq x.chain b ≠ 0) :
    ∃ e ∈ x.chain, e.nextByte = b := by
  by_contra hnone
  push Not at hnone
  exact h (actFreq_eq_zero hnone)

/-- A quotient between `2^31` and `2^32` is a negative index. -/
theorem CountsOk.quotient (hc : CountsOk B xs) (h : LevelOf xs) {x : Active} (hx : x ∈ xs)
    (b : UInt8) : (actFreq x.chain b).toNat * B.pres < 2 ^ 31 * x.cc.totalFreq.toNat ∨
      2 ^ 32 * x.cc.totalFreq.toNat ≤ (actFreq x.chain b).toNat * B.pres := by
  have hpos := Nat.pos_of_ne_zero (h.total_pos x hx)
  by_contra hmid
  push Not at hmid
  have hf : actFreq x.chain b ≠ 0 := by
    intro h0
    rw [h0, UInt32.toNat_zero, Nat.zero_mul] at hmid
    omega
  have hidx := hc.index b ⟨x, hx, exists_of_actFreq_ne_zero hf⟩ x hx hf
  have hlow := (Nat.le_div_iff_mul_le hpos).2 hmid.1
  have hhigh := (Nat.div_lt_iff_lt_mul hpos).2 hmid.2
  rw [Nat.mod_eq_of_lt hhigh] at hidx
  omega

/-- The counts of a byte from 128 times the total on in every context are too many. -/
theorem CountsOk.exists_lt (hc : CountsOk B xs) (h : LevelOf xs) (hne : xs ≠ []) (b : UInt8) :
    ∃ x ∈ xs, (actFreq x.chain b).toNat < 128 * x.cc.totalFreq.toNat := by
  by_contra hall
  push Not at hall
  have hf : ∀ x ∈ xs, actFreq x.chain b ≠ 0 := by
    intro x hx h0
    have hge := hall x hx
    have hpos := h.total_pos x hx
    rw [h0, UInt32.toNat_zero] at hge
    omega
  have hbig : ∀ t ∈ xs.map (·.term B b), 2 ^ 35 ≤ t.2 := by
    intro t ht
    obtain ⟨x, hx, rfl⟩ := List.mem_map.1 ht
    have hge := hall x hx
    have hdiv : 2 ^ 35 ≤ (actFreq x.chain b).toNat * pscale / x.cc.totalFreq.toNat := by
      rw [Nat.le_div_iff_mul_le (Nat.pos_of_ne_zero (h.total_pos x hx))]
      simp only [pscale]
      omega
    unfold Active.term countTerm
    rw [if_neg (hf x hx)]
    exact Int.ofNat_le.2 hdiv
  obtain ⟨x, hx⟩ := List.exists_mem_of_ne_nil xs hne
  have hlt := hc.sum b ⟨x, hx, exists_of_actFreq_ne_zero (hf x hx)⟩
  have hge := weightedSum_ge (B := B) (h.terms_ok b) (by simpa using hne) hbig
  omega

theorem countsOk_iff (h : LevelOf xs) (hlen : xs.length ≤ 1) : CountsOk B xs ↔ CountsFit xs := by
  refine ⟨fun hc => ⟨fun x hx => spread_ne_zero.1 (hc.spread x hx), ?_⟩, fun hc => hc.countsOk h⟩
  intro x hx b
  obtain ⟨y, hy, hlt⟩ := hc.exists_lt h (List.ne_nil_of_mem hx) b
  obtain rfl : x = y := by
    obtain ⟨z, rfl⟩ : ∃ z, xs = [z] :=
      List.length_eq_one_iff.1 (hlen.antisymm (List.length_pos_of_mem hx))
    rw [List.mem_singleton.1 hx, List.mem_singleton.1 hy]
  calc xs.length * (actFreq x.chain b).toNat ≤ 1 * (actFreq x.chain b).toNat :=
        Nat.mul_le_mul_right _ hlen
    _ < 128 * x.cc.totalFreq.toNat := by omega

theorem countsOk_of_weigh (h : LevelOf xs) (hspread : ∀ x ∈ xs, spread x.cc.totalFreq ≠ 0)
    (hmean : ∀ b, (∃ x ∈ xs, ∃ e ∈ x.chain, e.nextByte = b) → ∃ terms u,
      (xs.map (·.act B)).mapM (actTerm B true b) = .ok terms ∧ weigh B true terms = .ok u) :
    CountsOk B xs := by
  have hindex : ∀ b, (∃ x ∈ xs, ∃ e ∈ x.chain, e.nextByte = b) →
      ∀ x ∈ xs, IndexOk B x.cc.totalFreq (actFreq x.chain b) := by
    intro b hb x hx
    obtain ⟨terms, u, hterms, -⟩ := hmean b hb
    obtain ⟨t, ht⟩ := mapM_mem hterms (List.mem_map_of_mem hx)
    by_contra hidx
    rw [actTerm_negative (Active.act_ok (h.n_le x hx) (h.total_pos x hx)) hidx] at ht
    cases ht
  refine ⟨hspread, hindex, ?_⟩
  intro b hb
  obtain ⟨terms, u, hterms, hu⟩ := hmean b hb
  rw [mapM_actTerm h (hindex b hb)] at hterms
  obtain rfl := Except.ok.inj hterms
  by_contra hsum
  rw [weigh_overflow (h.terms_ok (B := B) b) _ _ (by omega)] at hu
  · cases hu
  · obtain ⟨x, hx, -⟩ := hb
    simpa using List.ne_nil_of_mem hx
  · rw [List.length_map]
    exact h.length_le

theorem countsOk_of_combineLevel (h : LevelOf xs) (hspread : ∀ x ∈ xs, spread x.cc.totalFreq ≠ 0)
    {s' : Sums} (hrun : combineLevel B true wint (xs.map (·.act B)) (observedIn xs) s = .ok s') :
    CountsOk B xs := by
  apply countsOk_of_weigh h hspread
  intro b hb
  have hne : ¬ xs.map (·.act B) = [] := by
    obtain ⟨x, hx, -⟩ := hb
    simpa using List.ne_nil_of_mem hx
  rw [combineLevel, if_neg hne] at hrun
  obtain ⟨deflt, -, hrun⟩ := bind_eq_ok.1 hrun
  obtain ⟨s1, -, hrun⟩ := bind_eq_ok.1 hrun
  obtain ⟨c, c', hstep⟩ := foldlM_mem hrun (mem_observedIn.2 hb)
  obtain ⟨terms, hterms, hstep⟩ := bind_eq_ok.1 hstep
  obtain ⟨u, hu, -⟩ := bind_eq_ok.1 hstep
  exact ⟨terms, u, hterms, hu⟩

end Level

section Run

/-- The contexts a level finds active. -/
def levelActives (B : Build) (r : BtV3Reader) (lv : BtLevel) : List Active :=
  actives B r (scanOrder lv.dmin (min r.window.bytes.length lv.dmax))

/-- The counts that the lookups of a level find are ones its arithmetic can stand. -/
def LevelSafe (B : Build) (r : BtV3Reader) (lv : BtLevel) : Prop :=
  CountsOk B (levelActives B r lv)

variable {lv : BtLevel}

theorem levels_bounds : ∀ lv ∈ levels, 1 ≤ lv.dmin ∧ lv.dmax ≤ btMaxDepth ∧ lv.wint ≤ 512 := by
  decide

theorem mem_scanOrder {dmin start n : Nat} (h : n ∈ scanOrder dmin start) : n ≤ start := by
  rw [scanOrder, List.mem_reverse, List.mem_range'_1] at h
  omega

theorem scanOrder_le (hlv : lv ∈ levels) {n : Nat}
    (hn : n ∈ scanOrder lv.dmin (min r.window.bytes.length lv.dmax)) : n ≤ btMaxDepth :=
  (mem_scanOrder hn).trans ((Nat.min_le_right _ _).trans (levels_bounds lv hlv).2.1)

theorem levelOf_levelActives (hlv : lv ∈ levels) : LevelOf (levelActives B r lv) := by
  refine ⟨fun x hx => scanOrder_le hlv (mem_actives hx).1, fun x hx => (mem_actives hx).2, ?_⟩
  have hlen : (levelActives B r lv).length ≤
      (scanOrder lv.dmin (min r.window.bytes.length lv.dmax)).length :=
    List.length_filterMap_le _ _
  obtain ⟨h1, h24, -⟩ := levels_bounds lv hlv
  rw [scanOrder, List.length_reverse, List.length_range'] at hlen
  omega

theorem distLevel_ok (hlv : lv ∈ levels) (hsafe : LevelSafe B r lv) (hb : Bounded K s)
    (hK : K + 768 * maxStep < 2 ^ 63) {st : List Act × List UInt8}
    (hscan : scanLevel B true r (scanOrder lv.dmin (min r.window.bytes.length lv.dmax))
      ([], []) = .ok st) :
    ∃ s', combineLevel B true lv.wint st.1 st.2 s = .ok s' ∧ Bounded (K + 768 * maxStep) s' := by
  obtain ⟨acts, obs⟩ := st
  obtain ⟨rfl, rfl, -⟩ := scanLevel_ok (fun n hn => scanOrder_le hlv hn) hscan
  exact combineLevel_ok (levels_bounds lv hlv).2.2 (levelOf_levelActives hlv) hsafe hb hK

theorem distLevel_throws (hlookup : ∀ n, Throws Memory (activeAt B r n)) (hlv : lv ∈ levels)
    (hsafe : LevelSafe B r lv) (hb : Bounded K s) (hK : K + 768 * maxStep < 2 ^ 63) :
    Throws Memory (distLevel B true r s lv) ∧
      ∀ s', distLevel B true r s lv = .ok s' → Bounded (K + 768 * maxStep) s' := by
  constructor
  · apply (scanLevel_throws (fun n _ => hlookup n) (fun n hn => scanOrder_le hlv hn)
      hsafe.spread ([], [])).bind
    intro st hscan
    obtain ⟨s', hs', -⟩ := distLevel_ok hlv hsafe hb hK hscan
    exact .of_ok ⟨s', hs'⟩
  · intro s' h
    obtain ⟨st, hscan, h⟩ := bind_eq_ok.1 h
    obtain ⟨s1, hs1, hb1⟩ := distLevel_ok hlv hsafe hb hK hscan
    obtain rfl : s1 = s' := Except.ok.inj (hs1.symm.trans h)
    exact hb1

theorem levelSafe_of_distLevel (hlv : lv ∈ levels) {s' : Sums}
    (h : distLevel B true r s lv = .ok s') : LevelSafe B r lv := by
  obtain ⟨⟨acts, obs⟩, hscan, h⟩ := bind_eq_ok.1 h
  obtain ⟨rfl, rfl, hspread⟩ := scanLevel_ok (fun n hn => scanOrder_le hlv hn) hscan
  exact countsOk_of_combineLevel (levelOf_levelActives hlv) hspread h

theorem levels_bound {lvs : List BtLevel}
    (hK : K + ((lv :: lvs).length : Int) * (768 * maxStep) < 2 ^ 63) :
    K + 768 * maxStep < 2 ^ 63 ∧ K + 768 * maxStep + lvs.length * (768 * maxStep) < 2 ^ 63 := by
  have hmax : 0 ≤ maxStep := by simp [maxStep]
  have hlen : ((lv :: lvs).length : Int) * (768 * maxStep) =
      768 * maxStep + lvs.length * (768 * maxStep) := by
    rw [List.length_cons]
    push_cast
    ring
  have hrest : 0 ≤ (lvs.length : Int) * (768 * maxStep) := Int.mul_nonneg (by omega) (by omega)
  rw [hlen] at hK
  omega

theorem foldlM_distLevel_throws (hlookup : ∀ n, Throws Memory (activeAt B r n))
    {lvs : List BtLevel} (hlvs : ∀ lv ∈ lvs, lv ∈ levels ∧ LevelSafe B r lv) (hb : Bounded K s)
    (hK : K + lvs.length * (768 * maxStep) < 2 ^ 63) :
    Throws Memory (lvs.foldlM (distLevel B true r) s) := by
  induction lvs generalizing s K with
  | nil => exact .ok s
  | cons lv lvs ih =>
    obtain ⟨hlv, hsafe⟩ := hlvs lv List.mem_cons_self
    obtain ⟨hone, hrest⟩ := levels_bound hK
    obtain ⟨hthrows, hbound⟩ := distLevel_throws hlookup hlv hsafe hb hone
    rw [List.foldlM_cons]
    apply hthrows.bind
    intro s' hs'
    exact ih (fun lv hlv => hlvs lv (List.mem_cons_of_mem _ hlv)) (hbound s' hs') hrest

theorem meanProb_ok (x : Int × Int) : ∃ q, meanProb x = .ok q := by
  unfold meanProb
  split_ifs with h
  · exact ⟨x.1.tdiv x.2, by rw [i64Div, if_neg h.ne']; rfl⟩
  · exact ⟨_, rfl⟩

theorem probs_throws (hlookup : ∀ n, Throws Memory (activeAt B r n))
    (hsafe : ∀ lv ∈ levels, LevelSafe B r lv) : Throws Memory (probs B true r) := by
  unfold probs
  split_ifs
  · exact .ok _
  · have hb : Bounded 0 (fun _ => (0, 0)) := fun b => by simp
    apply (foldlM_distLevel_throws hlookup (fun lv hlv => ⟨hlv, hsafe lv hlv⟩) hb
      (by simp [levels, maxStep])).bind
    intro s _
    apply Throws.mapM
    intro b _
    have hmean : Throws Memory (meanProb (s b)) := .of_ok (meanProb_ok (s b))
    exact hmean.bind fun _ _ => .ok _

theorem sumM_ok {ps : List Int} (hps : ∀ q ∈ ps, 1 ≤ q ∧ q ≤ 2 ^ 28) {x : Int} (h0 : 0 ≤ x)
    (hx : x + ps.length * 2 ^ 28 < 2 ^ 63) :
    ∃ y, ps.foldlM (fun s p => i64 (s + p)) x = .ok y ∧ y ≤ x + ps.length * 2 ^ 28 := by
  induction ps generalizing x with
  | nil => exact ⟨x, rfl, by simp⟩
  | cons q ps ih =>
    obtain ⟨hq1, hq28⟩ := hps q List.mem_cons_self
    rw [List.length_cons] at hx ⊢
    push_cast at hx ⊢
    obtain ⟨y, hy, hle⟩ := ih (fun z hz => hps z (List.mem_cons_of_mem q hz))
      (by omega : 0 ≤ x + q) (by omega)
    refine ⟨y, ?_, by omega⟩
    rw [List.foldlM_cons, i64_small (by omega) (by omega), ok_bind, hy]

theorem scaleProb_ok {t q : Int} (ht : 0 < t ∧ t ≤ 2 ^ 36) (hq : 0 ≤ q ∧ q ≤ 2 ^ 28) :
    ∃ w, scaleProb rcScale t q = .ok w := by
  have hnum : (0 : Int) ≤ 950 * (rcScale : Int) * q ∧ 950 * (rcScale : Int) * q < 2 ^ 62 := by
    simp only [rcScale]
    omega
  have hscale : i64 (950 * (rcScale : Int)) = .ok (950 * (rcScale : Int)) := by
    apply i64_small <;> simp [rcScale]
  have hdiv0 : 0 ≤ 950 * (rcScale : Int) * q / (1000 * t) :=
    Int.ediv_nonneg hnum.1 (by omega)
  have hdivle : 950 * (rcScale : Int) * q / (1000 * t) ≤ 950 * (rcScale : Int) * q :=
    Int.ediv_le_self _ hnum.1
  have hextra : (50 * (rcScale : Int) / (1000 * 256)) = 3 := by
    simp [rcScale]
  have hx := i64_small hnum.1 (by omega)
  have hy : i64 (1000 * t) = .ok (1000 * t) := i64_small (by omega) (by omega)
  have hdiv : i64Div (950 * (rcScale : Int) * q) (1000 * t) =
      .ok (950 * (rcScale : Int) * q / (1000 * t)) := i64Div_of_pos hnum.1 (by omega)
  have hz : i64 (950 * (rcScale : Int) * q / (1000 * t) + 50 * (rcScale : Int) / (1000 * 256)) =
      .ok (950 * (rcScale : Int) * q / (1000 * t) + 50 * (rcScale : Int) / (1000 * 256)) := by
    rw [hextra]
    exact i64_small (by omega) (by omega)
  rw [scaleProb, hscale, ok_bind, hx, ok_bind, hy, ok_bind, hdiv, ok_bind, hz, ok_bind]
  exact ⟨_, rfl⟩

theorem btV3DistributionR_throws (hlookup : ∀ n, Throws Memory (activeAt B r n))
    (hsafe : ∀ lv ∈ levels, LevelSafe B r lv) :
    Throws Memory (btV3DistributionR B true r rcScale) := by
  apply (probs_throws hlookup hsafe).bind
  intro ps hprobs
  obtain ⟨hlen, hps⟩ := probs_spec hprobs
  obtain ⟨y, hy, hle⟩ := sumM_ok hps le_rfl (by rw [hlen]; norm_num)
  rw [hlen] at hle
  rw [hy, ok_bind]
  split_ifs with hpos
  · exact .ok _
  · have hscale : Throws Memory (ps.mapM (scaleProb rcScale y)) := by
      apply Throws.mapM
      intro q hq
      obtain ⟨hq1, hq28⟩ := hps q hq
      exact .of_ok (scaleProb_ok (by omega) (by omega))
    exact hscale.bind fun _ _ => .ok _

theorem btV3DistributionR_ok (hlookup : ∀ n, ∃ o, activeAt B r n = .ok o)
    (hsafe : ∀ lv ∈ levels, LevelSafe B r lv) :
    ∃ cum, btV3DistributionR B true r rcScale = .ok cum := by
  have hmemory := btV3DistributionR_throws (fun n => .of_ok (hlookup n)) hsafe
  have harith := throws_of_lookups true (fun n => .of_ok (hlookup n)) rcScale
  exact hmemory.ok_of_disjoint harith fun f hmem har => absurd (hmem.symm.trans har) (by decide)

theorem activeAt_of_btV3DistributionR {cum : Cum}
    (h : btV3DistributionR B true r rcScale = .ok cum) {lv : BtLevel} (hlv : lv ∈ levels) {n : Nat}
    (hn : n ∈ scanOrder lv.dmin (min r.window.bytes.length lv.dmax)) :
    ∃ o, activeAt B r n = .ok o := by
  obtain ⟨ps, hprobs, -⟩ := bind_eq_ok.1 h
  unfold probs at hprobs
  split_ifs at hprobs with hempty
  · -- an empty window has no contexts to look up
    have hmin := (levels_bounds lv hlv).1
    rw [scanOrder, List.mem_reverse, List.mem_range'_1, hempty] at hn
    simp at hn
    omega
  · obtain ⟨s, hs, -⟩ := bind_eq_ok.1 hprobs
    obtain ⟨s1, s2, hstep⟩ := foldlM_mem hs hlv
    obtain ⟨st, hscan, -⟩ := bind_eq_ok.1 hstep
    exact scanLevel_lookups hscan hn

theorem levelSafe_of_btV3DistributionR {cum : Cum}
    (h : btV3DistributionR B true r rcScale = .ok cum) : ∀ lv ∈ levels, LevelSafe B r lv := by
  obtain ⟨ps, hprobs, -⟩ := bind_eq_ok.1 h
  intro lv hlv
  unfold probs at hprobs
  split_ifs at hprobs with hempty
  · -- an empty window has no contexts to look up
    have hnone : levelActives B r lv = [] := by
      have hmin : 1 ≤ lv.dmin := (levels_bounds lv hlv).1
      have hstart : min r.window.bytes.length lv.dmax = 0 := by simp [hempty]
      have horder : scanOrder lv.dmin 0 = [] := by
        have hzero : 0 + 1 - lv.dmin = 0 := by omega
        rw [scanOrder, hzero]
        rfl
      rw [levelActives, hstart, horder]
      rfl
    rw [LevelSafe, hnone]
    exact ⟨fun _ hx => (nomatch hx), fun _ ⟨_, hx, _⟩ => (nomatch hx),
      fun _ ⟨_, hx, _⟩ => (nomatch hx)⟩
  · obtain ⟨s, hs, -⟩ := bind_eq_ok.1 hprobs
    obtain ⟨s1, s2, hstep⟩ := foldlM_mem hs hlv
    exact levelSafe_of_distLevel hlv hstep

end Run

end Bcb.Bt
