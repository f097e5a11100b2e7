import Bcb.Codec.Cache

namespace Bcb.Codec

open RangeCoder Bt Prior

/-- `BCB_NO_DISTCACHE`. -/
def noDistcache (B : Build) : Build := { B with distcache := false }

/-- What is done to a codec between its birth and its end. -/
inductive CodecCall
  | dist (scale : Nat)
  | train (b : UInt8)
  | begin

/-- The table, if the call gives one, and the codec afterwards. -/
def codecCall (B : Build) (luts : Bool) (p : BcbPrior) :
    CodecCall → BcbCodec → Outcome (Option Cum × BcbCodec)
  | .dist scale, c => do
    let (cum, c) ← codecDist B luts p scale c
    return (some cum, c)
  | .train b, c => do
    let c ← codecTrain p b c
    return (none, c)
  | .begin, c => pure (none, bcbCodecBegin B p c)

/-- The tables that calls one after another give. -/
def codecCalls (B : Build) (luts : Bool) (p : BcbPrior) :
    List CodecCall → BcbCodec → Outcome (List (Option Cum))
  | [], _ => pure []
  | call :: calls, c => do
    let (cum, c) ← codecCall B luts p call c
    let cums ← codecCalls B luts p calls c
    return cum :: cums

variable {B : Build} {luts : Bool} {p : BcbPrior} {c d : BcbCodec}

section Sizing

/-! Only the sizes of a build matter to the distribution. -/

@[simp] theorem activeAt_noDistcache : activeAt (noDistcache B) = activeAt B := rfl

@[simp] theorem act_noDistcache : act (noDistcache B) luts = act B luts := rfl

theorem scanLevel_noDistcache (r : BtV3Reader) (ns : List Nat) (st : List Act × List UInt8) :
    scanLevel (noDistcache B) luts r ns st = scanLevel B luts r ns st := by
  induction ns generalizing st with
  | nil => rfl
  | cons n ns ih => simp only [scanLevel, activeAt_noDistcache, act_noDistcache, ih]

@[simp] theorem distLevel_noDistcache : distLevel (noDistcache B) luts = distLevel B luts := by
  funext r s lv
  simp only [distLevel, scanLevel_noDistcache]
  rfl

@[simp] theorem btV3DistributionR_noDistcache :
    btV3DistributionR (noDistcache B) luts = btV3DistributionR B luts := by
  funext r scale
  simp only [btV3DistributionR, probs, distLevel_noDistcache]

end Sizing

@[simp] theorem codecDist_noDistcache (scale : Nat) :
    codecDist (noDistcache B) luts p scale c = codecDist B luts p scale c := by
  simp only [codecDist, btDist, btV3DistributionR_noDistcache]

/-- The codec of the build with the cache, and the one of the build without. -/
structure Shadow (B : Build) (p : BcbPrior) (c d : BcbCodec) : Prop where
  left : Coherent B p c
  right : Coherent (noDistcache B) p d
  left_pre : c.scCumPre = none
  right_pre : d.scCumPre = none
  bare_eq : bare c = bare d

@[simp]
theorem bcbCodecBegin_scCumPre (c : BcbCodec) : (bcbCodecBegin B p c).scCumPre = c.scCumPre := by
  unfold bcbCodecBegin
  cases structural p with
  | true => rfl
  | false =>
    simp only [Bool.false_eq_true, if_false]
    split_ifs <;> rfl

theorem codecTrain_scCumPre {b : UInt8} (h : codecTrain p b c = .ok d) :
    d.scCumPre = c.scCumPre := by
  rcases codecTrain_ok h with ⟨-, actual, -, rfl⟩ | ⟨-, rfl⟩ <;> rfl

theorem codecDist_scCumPre {scale : Nat} {cum : Cum} (h : codecDist B luts p scale c = .ok (cum, d)) :
    d.scCumPre = c.scCumPre := by
  unfold codecDist at h
  split_ifs at h
  · obtain ⟨_, -, h⟩ := bind_eq_ok.1 h
    obtain ⟨-, rfl⟩ := Prod.mk.inj (Except.ok.inj h)
    rfl
  · obtain ⟨o, -, h⟩ := bind_eq_ok.1 h
    cases o with
    | some cum =>
      obtain ⟨-, rfl⟩ := Prod.mk.inj (Except.ok.inj h)
      rfl
    | none =>
      unfold btDist at h
      cases hdc : c.distcache with
      | none =>
        rw [hdc] at h
        obtain ⟨_, -, h⟩ := bind_eq_ok.1 h
        obtain ⟨-, rfl⟩ := Prod.mk.inj (Except.ok.inj h)
        rfl
      | some cache =>
        rw [hdc] at h
        simp only at h
        split_ifs at h
        · obtain ⟨-, rfl⟩ := Prod.mk.inj (Except.ok.inj h)
          rfl
        · obtain ⟨cum', -, h⟩ := bind_eq_ok.1 h
          obtain ⟨-, rfl⟩ := Prod.mk.inj (Except.ok.inj h)
          rfl

theorem structuralDist_noPre (h : c.scCumPre = none) (scale : Nat) :
    structuralDist p c scale = structuralDist p (bare c) scale := by
  unfold structuralDist
  rw [h]
  rfl

theorem Shadow.begin (h : Shadow B p c d) :
    Shadow B p (bcbCodecBegin B p c) (bcbCodecBegin (noDistcache B) p d) := by
  refine ⟨h.left.begin, h.right.begin, ?_, ?_, ?_⟩
  · rw [bcbCodecBegin_scCumPre, h.left_pre]
  · rw [bcbCodecBegin_scCumPre, h.right_pre]
  · rw [bare_begin, bare_begin]
    cases structural p with
    | true =>
      exact congrArg (fun c : BcbCodec => { c with
        scPos := 0, scPrev := fun _ => 0, scCur := fun _ => 0 }) h.bare_eq
    | false => exact congrArg (fun c : BcbCodec => { c with window := .empty }) h.bare_eq

theorem Shadow.new (alloc : Bool) :
    Shadow B p (bcbCodecNew B p alloc) (bcbCodecNew (noDistcache B) p alloc) := by
  refine ⟨.new alloc, .new alloc, ?_, ?_, ?_⟩
  · exact bcbCodecBegin_scCumPre _
  · exact bcbCodecBegin_scCumPre _
  · rw [bcbCodecNew, bcbCodecNew, bare_begin, bare_begin]
    cases structural p <;> rfl

theorem Shadow.dist (h : Shadow B p c d) (scale : Nat) :
    Alike (fun x y => x.1 = y.1 ∧ Shadow B p x.2 y.2) (codecDist B true p scale c)
      (codecDist (noDistcache B) true p scale d) := by
  have hc := codecDist_bare_of h.left fun _ => structuralDist_noPre h.left_pre scale
  have hd := codecDist_bare_of h.right fun _ =>
    structuralDist_noPre h.right_pre scale
  rw [codecDist_noDistcache (c := bare d), ← h.bare_eq, ← hc] at hd
  apply (Alike.of_map hd.symm).with_eq.mono
  rintro ⟨cum, c'⟩ ⟨cum', d'⟩ ⟨heq, hleft, hright⟩
  obtain ⟨rfl, hbare⟩ := Prod.mk.inj heq
  refine ⟨rfl, h.left.dist hleft, h.right.dist hright, ?_, ?_, hbare⟩
  · rw [codecDist_scCumPre hleft, h.left_pre]
  · rw [codecDist_scCumPre hright, h.right_pre]

theorem Shadow.train (h : Shadow B p c d) (b : UInt8) :
    Alike (Shadow B p) (codecTrain p b c) (codecTrain p b d) := by
  have hbare : (codecTrain p b c).map bare = (codecTrain p b d).map bare := by
    rw [codecTrain_bare, h.bare_eq, ← codecTrain_bare]
  apply (Alike.of_map hbare).with_eq.mono
  rintro c' d' ⟨heq, hleft, hright⟩
  refine ⟨h.left.train hleft, h.right.train hright, ?_, ?_, heq⟩
  · rw [codecTrain_scCumPre hleft, h.left_pre]
  · rw [codecTrain_scCumPre hright, h.right_pre]

theorem Shadow.call (h : Shadow B p c d) (call : CodecCall) :
    Alike (fun x y => x.1 = y.1 ∧ Shadow B p x.2 y.2) (codecCall B true p call c)
      (codecCall (noDistcache B) true p call d) := by
  cases call with
  | dist scale =>
    apply (h.dist scale).bind
    rintro ⟨cum, c'⟩ ⟨cum', d'⟩ ⟨rfl, h'⟩
    exact .ok ⟨rfl, h'⟩
  | train b =>
    apply (h.train b).bind
    intro c' d' h'
    exact .ok ⟨rfl, h'⟩
  | begin => exact .ok ⟨rfl, h.begin⟩

theorem Shadow.calls (h : Shadow B p c d) (calls : List CodecCall) :
    codecCalls B true p calls c = codecCalls (noDistcache B) true p calls d := by
  induction calls generalizing c d with
  | nil => rfl
  | cons call calls ih =>
    apply Alike.eq
    apply (h.call call).bind
    rintro ⟨cum, c'⟩ ⟨cum', d'⟩ ⟨rfl, h'⟩
    simp only [ih h']
    exact .refl (fun _ => rfl) _

/-- The distribution cache is invisible. -/
theorem codecCalls_noDistcache (B : Build) (p : BcbPrior) (alloc : Bool)
    (calls : List CodecCall) :
    codecCalls B true p calls (bcbCodecNew B p alloc) =
      codecCalls (noDistcache B) true p calls (bcbCodecNew (noDistcache B) p alloc) :=
  (Shadow.new alloc).calls calls

end Bcb.Codec
