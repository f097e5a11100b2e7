import Bcb.Codec.Defs

namespace Bcb.Codec

open RangeCoder Bt Prior

/-- The codec of the builds without the distribution cache and the precomputed tables. -/
def bare (c : BcbCodec) : BcbCodec :=
  { c with scLast := 0, scCumPre := none, distcache := none, dcGen := 0 }

/-- The states that any calls on a codec lead to. -/
inductive Reachable (B : Build) (p : BcbPrior) : BcbCodec → Prop
  | new (alloc : Bool) : Reachable B p (bcbCodecNew B p alloc)
  | begin {c : BcbCodec} : Reachable B p c → Reachable B p (bcbCodecBegin B p c)
  | setSdelta {c c' : BcbCodec} {alloc on : Bool} : Reachable B p c →
      bcbCodecSetSdelta B p alloc on c = .ok c' → Reachable B p c'
  | dist {c c' : BcbCodec} {cum : Cum} : Reachable B p c →
      codecDist B true p rcScale c = .ok (cum, c') → Reachable B p c'
  | train {c c' : BcbCodec} {b : UInt8} : Reachable B p c →
      codecTrain p b c = .ok c' → Reachable B p c'

/-- The entries of the current generation hold the table of their key. -/
structure CacheValid (B : Build) (p : BcbPrior) (gen : Nat) (cache : Nat → BcbDistEntry) :
    Prop where
  live : ∀ i, (cache i).gen = gen → ∀ w : Window, w.bytes = (cache i).win →
    btV3DistributionR B true (reader p w) (cache i).scale = .ok (cache i).cum
  gen_le : ∀ i, (cache i).gen ≤ gen

structure Coherent (B : Build) (p : BcbPrior) (c : BcbCodec) : Prop where
  cache : ∀ cache, c.distcache = some cache →
    CacheValid B p c.dcGen cache ∧ 0 < c.dcGen ∧ c.dcGen < 2 ^ 32
  pre : ∀ t, c.scCumPre = some t → sdeltaBuildPrecompute p = .ok t
  pos : structural p = true → c.scPos < p.schemaRec
  /-- a codec leaves the state of the other mode as it was allocated -/
  window : structural p = true → c.window = .empty
  record : structural p = false → c.scPos = 0 ∧ c.scPrev = (fun _ => 0) ∧ c.scCur = (fun _ => 0)

/-- Where every message begins. -/
def start (p : BcbPrior) (on : Bool) : BcbCodec where
  window := .empty
  scPos := 0
  scPrev _ := 0
  scCur _ := 0
  sdelta := structural p && on
  scLast := 0
  scCumPre := none
  distcache := none
  dcGen := 0

variable {B : Build} {p : BcbPrior} {c c' : BcbCodec}

theorem CacheValid.emptyCache {gen : Nat} (h : 0 < gen) : CacheValid B p gen emptyCache := by
  refine ⟨?_, fun i => Nat.zero_le gen⟩
  intro i hi
  change 0 = gen at hi
  omega

theorem CacheValid.next {gen gen' : Nat} {cache : Nat → BcbDistEntry}
    (h : CacheValid B p gen cache) (hlt : gen < gen') : CacheValid B p gen' cache := by
  refine ⟨?_, fun i => (h.gen_le i).trans hlt.le⟩
  intro i hi
  have hle := h.gen_le i
  omega

theorem CacheValid.fill {gen scale : Nat} {cache : Nat → BcbDistEntry} {cum : Cum} {w : Window}
    (h : CacheValid B p gen cache)
    (hd : btV3DistributionR B true (reader p w) scale = .ok cum) (slot : Nat) :
    CacheValid B p gen (Function.update cache slot ⟨cum, gen, scale, w.bytes⟩) := by
  constructor
  · intro i hi w' hw'
    by_cases hslot : i = slot
    · subst hslot
      rw [Function.update_self] at hw' ⊢
      obtain rfl : w' = w := by
        cases w'
        cases w
        simpa using hw'
      exact hd
    · rw [Function.update_of_ne hslot] at hi hw' ⊢
      exact h.live i hi w' hw'
  · intro i
    by_cases hslot : i = slot
    · rw [hslot, Function.update_self]
    · rw [Function.update_of_ne hslot]
      exact h.gen_le i

theorem structural_rec_pos (h : structural p = true) : 0 < p.schemaRec ∧ 0 < p.schemaPos := by
  simp only [structural, Bool.and_eq_true, decide_eq_true_eq] at h
  exact h.1

theorem bare_begin (c : BcbCodec) : bare (bcbCodecBegin B p c) =
    bare (if structural p then { c with scPos := 0, scPrev := fun _ => 0, scCur := fun _ => 0 }
      else { c with window := .empty }) := by
  unfold bcbCodecBegin
  cases structural p with
  | true => rfl
  | false =>
    simp only [Bool.false_eq_true, if_false]
    split_ifs <;> rfl

theorem Coherent.begin (h : Coherent B p c) : Coherent B p (bcbCodecBegin B p c) := by
  unfold bcbCodecBegin
  cases hs : structural p with
  | true =>
    refine ⟨h.cache, h.pre, fun _ => (structural_rec_pos hs).1, fun _ => h.window hs, ?_⟩
    intro hs'
    exact absurd (hs.symm.trans hs') (by decide)
  | false =>
    have hstr : structural p = true → False := fun hs' => absurd (hs.symm.trans hs') (by decide)
    simp only [Bool.false_eq_true, if_false]
    split_ifs with hclear hwrap
    · refine ⟨?_, h.pre, fun hs' => (hstr hs').elim, fun hs' => (hstr hs').elim, h.record⟩
      intro cache hcache
      obtain ⟨_, -, rfl⟩ := Option.map_eq_some_iff.1 hcache
      exact ⟨.emptyCache Nat.one_pos, Nat.one_pos, by norm_num⟩
    · refine ⟨?_, h.pre, fun hs' => (hstr hs').elim, fun hs' => (hstr hs').elim, h.record⟩
      intro cache hcache
      obtain ⟨hvalid, hpos, hlt⟩ := h.cache cache hcache
      have hgen : (c.dcGen + 1) % 2 ^ 32 = c.dcGen + 1 := by omega
      simp only [hgen]
      exact ⟨hvalid.next (Nat.lt_succ_self _), Nat.succ_pos _, by omega⟩
    · exact ⟨h.cache, h.pre, fun hs' => (hstr hs').elim, fun hs' => (hstr hs').elim, h.record⟩

theorem Coherent.new (alloc : Bool) : Coherent B p (bcbCodecNew B p alloc) := by
  apply Coherent.begin
  refine ⟨?_, fun t ht => (by cases ht), fun hs => (structural_rec_pos hs).1, fun _ => rfl,
    fun _ => ⟨rfl, rfl, rfl⟩⟩
  intro cache hcache
  simp only at hcache
  split_ifs at hcache with hon
  simp only [Bool.and_eq_true] at hon
  obtain rfl := Option.some.inj hcache
  simp only [hon.1, Bool.and_self, if_true]
  exact ⟨.emptyCache Nat.one_pos, Nat.one_pos, by norm_num⟩

theorem bcbCodecSetSdelta_ok {alloc on : Bool} (h : bcbCodecSetSdelta B p alloc on c = .ok c') :
    ∃ pre, c' = { c with sdelta := structural p && on, scCumPre := pre } ∧
      (pre = c.scCumPre ∨ ∃ t, pre = some t ∧ sdeltaBuildPrecompute p = .ok t) := by
  simp only [bcbCodecSetSdelta] at h
  split_ifs at h
  · obtain ⟨t, ht, h⟩ := bind_eq_ok.1 h
    exact ⟨some t, (Except.ok.inj h).symm, .inr ⟨t, rfl, ht⟩⟩
  · exact ⟨c.scCumPre, (Except.ok.inj h).symm, .inl rfl⟩

theorem Coherent.setSdelta {alloc on : Bool} (hc : Coherent B p c)
    (h : bcbCodecSetSdelta B p alloc on c = .ok c') : Coherent B p c' := by
  obtain ⟨pre, rfl, hpre⟩ := bcbCodecSetSdelta_ok h
  refine ⟨hc.cache, ?_, hc.pos, hc.window, hc.record⟩
  intro t ht
  rcases hpre with rfl | ⟨t', rfl, ht'⟩
  · exact hc.pre t ht
  · obtain rfl := Option.some.inj ht
    exact ht'

theorem bare_start {alloc on : Bool} (hc : Coherent B p c)
    (h : bcbCodecSetSdelta B p alloc on (bcbCodecBegin B p c) = .ok c') : bare c' = start p on := by
  obtain ⟨pre, rfl, -⟩ := bcbCodecSetSdelta_ok h
  have hbegin := bare_begin (B := B) (p := p) c
  have hsd : bare { bcbCodecBegin B p c with sdelta := structural p && on, scCumPre := pre } =
      { bare (bcbCodecBegin B p c) with sdelta := structural p && on } := rfl
  rw [hsd, hbegin]
  cases hs : structural p with
  | true => simp [bare, start, hs, hc.window hs]
  | false => simp [bare, start, hs, hc.record hs]

theorem codecTrain_ok {b : UInt8} (h : codecTrain p b c = .ok c') :
    structural p = true ∧ (∃ actual, actualByte p c b = .ok actual ∧ c' = { c with
        scLast := actual
        scCur := Function.update c.scCur c.scPos actual
        scPos := advance p c.scPos
        scPrev := if advance p c.scPos = 0
          then copyRec p c.scPrev (Function.update c.scCur c.scPos actual) else c.scPrev }) ∨
      structural p = false ∧ c' = { c with window := c.window.push b } := by
  cases hs : structural p with
  | true =>
    rw [codecTrain, hs, if_pos rfl] at h
    obtain ⟨actual, hact, h⟩ := bind_eq_ok.1 h
    exact .inl ⟨rfl, actual, hact, (Except.ok.inj h).symm⟩
  | false =>
    rw [codecTrain, hs, if_neg (by decide)] at h
    exact .inr ⟨rfl, (Except.ok.inj h).symm⟩

theorem codecTrain_structural (hs : structural p = true) {b sym : UInt8}
    (hact : actualByte p c sym = .ok b) :
    ∃ c', codecTrain p sym c = .ok c' ∧
      c'.scCur = Function.update c.scCur c.scPos b ∧ c'.scPos = advance p c.scPos ∧
      c'.scPrev = (if advance p c.scPos = 0
        then copyRec p c.scPrev (Function.update c.scCur c.scPos b) else c.scPrev) ∧
      c'.sdelta = c.sdelta := by
  refine ⟨{ c with
    scLast := b
    scCur := Function.update c.scCur c.scPos b
    scPos := advance p c.scPos
    scPrev := if advance p c.scPos = 0
      then copyRec p c.scPrev (Function.update c.scCur c.scPos b) else c.scPrev },
    ?_, rfl, rfl, rfl, rfl⟩
  rw [codecTrain, hs, if_pos rfl, hact]
  rfl

theorem advance_lt (pos : Nat) (hrec : 0 < p.schemaRec) : advance p pos < p.schemaRec := by
  unfold advance
  split_ifs with hmask hend
  · have hle : scRecMask p ≤ p.schemaRec - 1 := by
      unfold scRecMask
      split_ifs
      · exact le_rfl
      · exact Nat.zero_le _
    have hand : (pos + 1) &&& scRecMask p ≤ scRecMask p := Nat.and_le_right
    omega
  · exact hrec
  · exact Nat.lt_of_not_le hend

theorem Coherent.train {b : UInt8} (hc : Coherent B p c) (h : codecTrain p b c = .ok c') :
    Coherent B p c' := by
  rcases codecTrain_ok h with ⟨hs, actual, -, rfl⟩ | ⟨hs, rfl⟩
  · refine ⟨hc.cache, hc.pre, fun hs => advance_lt c.scPos (structural_rec_pos hs).1,
      hc.window, ?_⟩
    intro hs'
    exact absurd (hs.symm.trans hs') (by decide)
  · refine ⟨hc.cache, hc.pre, hc.pos, ?_, hc.record⟩
    intro hs'
    exact absurd (hs.symm.trans hs') (by decide)

theorem btDist_bare (hc : Coherent B p c) (scale : Nat) :
    (btDist B true p c scale).map (fun x => (x.1, bare x.2)) = btDist B true p (bare c) scale := by
  unfold btDist
  cases hdc : c.distcache with
  | none =>
    simp only [bare]
    cases btV3DistributionR B true (reader p c.window) scale <;> rfl
  | some cache =>
    obtain ⟨hvalid, -⟩ := hc.cache cache hdc
    simp only [bare]
    split_ifs with hhit
    · obtain ⟨hgen, hscale, hwin⟩ := hhit
      have hlive := hvalid.live _ hgen c.window hwin.symm
      rw [hscale] at hlive
      rw [hlive]
      rfl
    · cases btV3DistributionR B true (reader p c.window) scale <;> rfl

theorem Coherent.btDist {scale : Nat} {cum : Cum} (hc : Coherent B p c)
    (h : btDist B true p c scale = .ok (cum, c')) : Coherent B p c' := by
  unfold Codec.btDist at h
  cases hdc : c.distcache with
  | none =>
    rw [hdc] at h
    obtain ⟨_, -, h⟩ := bind_eq_ok.1 h
    obtain ⟨-, rfl⟩ := Prod.mk.inj (Except.ok.inj h)
    exact hc
  | some cache =>
    obtain ⟨hvalid, hgen⟩ := hc.cache cache hdc
    rw [hdc] at h
    simp only at h
    split_ifs at h
    · obtain ⟨-, rfl⟩ := Prod.mk.inj (Except.ok.inj h)
      exact hc
    · obtain ⟨cum', hd, h⟩ := bind_eq_ok.1 h
      obtain ⟨-, rfl⟩ := Prod.mk.inj (Except.ok.inj h)
      refine ⟨?_, hc.pre, hc.pos, hc.window, hc.record⟩
      intro cache' hcache'
      obtain rfl := Option.some.inj hcache'
      exact ⟨hvalid.fill hd _, hgen⟩

theorem wrapPos_lt (h : 0 < p.schemaPos) (pos : Nat) : wrapPos p pos < p.schemaPos := by
  unfold wrapPos
  split_ifs with hle
  · exact Nat.mod_lt _ h
  · exact Nat.lt_of_not_le hle

/-- The precomputed tables are the rows the coder would build. -/
theorem structuralDist_bare (hc : Coherent B p c) (hs : structural p = true) :
    structuralDist p c rcScale = structuralDist p (bare c) rcScale := by
  unfold structuralDist
  cases hpre : c.scCumPre with
  | none => rfl
  | some t =>
    have hbuild := hc.pre t hpre
    have hpos := wrapPos_lt (structural_rec_pos hs).2 c.scPos
    have hrange : (List.range p.schemaPos)[wrapPos p c.scPos]? = some (wrapPos p c.scPos) := by
      rw [List.getElem?_range hpos]
    obtain ⟨cum, hrow, hget⟩ := mapM_getElem hbuild hrange
    obtain ⟨w, hw, hcum⟩ := bind_eq_ok.1 hrow
    obtain rfl := Except.ok.inj hcum
    simp only [bare, hget, hw, ok_bind]

theorem codecDist_bare_of (hc : Coherent B p c) {scale : Nat}
    (hpre : structural p = true → structuralDist p c scale = structuralDist p (bare c) scale) :
    (codecDist B true p scale c).map (fun x => (x.1, bare x.2)) =
      codecDist B true p scale (bare c) := by
  unfold codecDist
  cases hs : structural p with
  | true =>
    simp only [if_true, hpre hs]
    cases structuralDist p (bare c) scale <;> rfl
  | false =>
    have hlm : landmarkDist p (bare c) scale = landmarkDist p c scale := rfl
    simp only [Bool.false_eq_true, if_false, hlm]
    cases landmarkDist p c scale with
    | error e => rfl
    | ok o =>
      cases o with
      | some cum => rfl
      | none => exact btDist_bare hc scale

theorem codecDist_bare (hc : Coherent B p c) :
    (codecDist B true p rcScale c).map (fun x => (x.1, bare x.2)) =
      codecDist B true p rcScale (bare c) :=
  codecDist_bare_of hc (structuralDist_bare hc)

theorem codecDist_of_bare {cum : Cum} (h : codecDist B true p rcScale (bare c) = .ok (cum, c')) :
    c' = bare c := by
  unfold codecDist at h
  split_ifs at h
  · obtain ⟨_, -, h⟩ := bind_eq_ok.1 h
    exact (Prod.mk.inj (Except.ok.inj h)).2.symm
  · obtain ⟨o, -, h⟩ := bind_eq_ok.1 h
    cases o with
    | some cum => exact (Prod.mk.inj (Except.ok.inj h)).2.symm
    | none =>
      obtain ⟨_, -, h⟩ := bind_eq_ok.1 h
      exact (Prod.mk.inj (Except.ok.inj h)).2.symm

theorem codecDist_ok {cum : Cum} (hc : Coherent B p c)
    (h : codecDist B true p rcScale c = .ok (cum, c')) :
    bare c' = bare c ∧ codecDist B true p rcScale (bare c) = .ok (cum, bare c) := by
  have hbare := codecDist_bare hc
  rw [h] at hbare
  have hstate : bare c' = bare c := codecDist_of_bare hbare.symm
  refine ⟨hstate, ?_⟩
  rw [← hbare, ← hstate]
  rfl

theorem codecDist_ok_of_bare {cum : Cum} (hc : Coherent B p c)
    (h : codecDist B true p rcScale (bare c) = .ok (cum, bare c)) :
    ∃ c', codecDist B true p rcScale c = .ok (cum, c') := by
  rw [← codecDist_bare hc] at h
  obtain ⟨⟨cum', c'⟩, hc', heq⟩ := map_eq_ok.1 h
  obtain ⟨rfl, -⟩ := Prod.mk.inj heq
  exact ⟨c', hc'⟩

theorem Coherent.dist {cum : Cum} {scale : Nat} (hc : Coherent B p c)
    (h : codecDist B true p scale c = .ok (cum, c')) : Coherent B p c' := by
  unfold codecDist at h
  split_ifs at h
  · obtain ⟨_, -, h⟩ := bind_eq_ok.1 h
    obtain ⟨-, rfl⟩ := Prod.mk.inj (Except.ok.inj h)
    exact hc
  · obtain ⟨o, -, h⟩ := bind_eq_ok.1 h
    cases o with
    | some cum =>
      obtain ⟨-, rfl⟩ := Prod.mk.inj (Except.ok.inj h)
      exact hc
    | none => exact hc.btDist h

theorem codecTrain_bare (b : UInt8) :
    (codecTrain p b c).map bare = (codecTrain p b (bare c)).map bare := by
  have hact : actualByte p (bare c) b = actualByte p c b := rfl
  unfold codecTrain
  split_ifs
  · rw [hact]
    cases actualByte p c b <;> rfl
  · rfl

theorem Reachable.coherent (h : Reachable B p c) : Coherent B p c := by
  induction h with
  | new alloc => exact .new alloc
  | begin _ ih => exact ih.begin
  | setSdelta _ h ih => exact ih.setSdelta h
  | dist _ h ih => exact ih.dist h
  | train _ h ih => exact ih.train h

end Bcb.Codec
