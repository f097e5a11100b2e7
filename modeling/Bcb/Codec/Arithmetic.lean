import Bcb.Bt.Safety
import Bcb.Codec.Memory
import Bcb.Prior.CountImage

namespace Bcb.Codec

open Lib RangeCoder Bt Prior

variable {B : Build} {im : Image} {p : BcbPrior}

theorem throws_region (off n : Nat) : Throws Memory (im.region off n) := by
  unfold Image.region
  split_ifs
  · exact .ok ()
  · exact .throw rfl

theorem throws_probe {α ι : Type} {next : ι → ι} {test : ι → Outcome (Option α)}
    (h : ∀ i, Throws Memory (test i)) (n : Nat) (i : ι) :
    Throws Memory (Probe.run .diverge next test n i) := by
  induction n generalizing i with
  | zero => exact .throw rfl
  | succ n ih =>
    rw [Probe.run]
    apply (h i).bind
    intro o _
    cases o with
    | none => exact ih (next i)
    | some a => exact .ok a

theorem throws_walk {α ι : Type} {get : ι → Outcome α} {next : α → Option ι}
    (h : ∀ i, Throws Memory (get i)) (n : Nat) (o : Option ι) :
    Throws Memory (walk .diverge get next n o) := by
  induction n generalizing o with
  | zero => exact .throw rfl
  | succ n ih =>
    cases o with
    | none => exact .ok []
    | some i =>
      apply (h i).bind
      intro a _
      exact (ih (next a)).bind fun _ _ => .ok _

theorem throws_activeAt (hp : priorParse B im = .ok (some p)) (w : Window) (n : Nat) :
    Throws Memory (activeAt B (reader p w) n) := by
  obtain ⟨-, -, slot, mask, -, rfl⟩ := priorParse_some hp
  have hbloom : ∀ ch, Throws Memory (bloomBit B (snapshot im (header im)).bloom ch) := fun ch =>
    ((throws_region _ _).bind fun _ _ => .ok _).bind fun _ _ => .ok _
  have hfind : ∀ ctx h, Throws Memory
      (ctxFindTest (reader (priorOf im (header im) slot mask) w) ctx h) := by
    intro ctx h
    apply ((throws_region _ _).bind fun _ _ => .ok _).bind
    intro s _
    cases link s with
    | none => exact .ok _
    | some i => exact ((throws_region _ _).bind fun _ _ => .ok _).bind fun _ _ => .ok _
  have hcheck : ∀ ctx, Throws Memory (bloomChkRd B (snapshot im (header im)).bloom ctx) := by
    intro ctx
    apply (hbloom _).bind
    intro b _
    cases b with
    | false => exact .ok _
    | true => exact hbloom _
  apply (hcheck _).bind
  intro hit _
  cases hit with
  | false => exact .ok _
  | true =>
    apply (throws_probe (hfind _) _ _).bind
    intro o _
    cases o with
    | none => exact .ok _
    | some cc =>
      dsimp only
      split_ifs
      · exact .ok _
      · exact (throws_walk (fun i => (throws_region _ _).bind fun _ _ => .ok _) _ _).bind
          fun _ _ => .ok _

/-- The counts of every level fit. -/
def FitCounts (B : Build) (p : BcbPrior) (w : Window) : Prop :=
  ∀ lv ∈ levels, CountsFit (levelActives B (reader p w) lv)

/-- From counts that fit the distribution is computed without a division by zero, an index outside
the lookup tables or an overflow.  Without these faults no total wraps to zero, no quotient is
between `2^31` and `2^32`, and no byte has been counted 128 times as often as each of the contexts;
where no level has two active contexts, that is to say that the counts fit. -/
theorem btV3DistributionR_safe (hp : priorParse B im = .ok (some p)) (w : Window) :
    (FitCounts B p w → Throws Memory (btV3DistributionR B true (reader p w) rcScale)) ∧
    (p.snap.ctxNslots ≤ 2 ^ 32 → Throws Memory (btV3DistributionR B true (reader p w) rcScale) →
      ∀ lv ∈ levels, (∀ x ∈ levelActives B (reader p w) lv, x.cc.totalFreq.toNat + 256 ≠ 2 ^ 32) ∧
        (∀ x ∈ levelActives B (reader p w) lv, ∀ b,
          (actFreq x.chain b).toNat * B.pres < 2 ^ 31 * x.cc.totalFreq.toNat ∨
            2 ^ 32 * x.cc.totalFreq.toNat ≤ (actFreq x.chain b).toNat * B.pres) ∧
        (levelActives B (reader p w) lv ≠ [] → ∀ b, ∃ x ∈ levelActives B (reader p w) lv,
          (actFreq x.chain b).toNat < 128 * x.cc.totalFreq.toNat)) ∧
    (p.snap.ctxNslots ≤ 2 ^ 32 → (∀ lv ∈ levels, (levelActives B (reader p w) lv).length ≤ 1) →
      (Throws Memory (btV3DistributionR B true (reader p w) rcScale) ↔ FitCounts B p w)) := by
  have hsafe : p.snap.ctxNslots ≤ 2 ^ 32 →
      Throws Memory (btV3DistributionR B true (reader p w) rcScale) →
        ∀ lv ∈ levels, LevelSafe B (reader p w) lv := by
    intro hslots h
    have harith := throws_btV3DistributionR true (reader_sound hp hslots w) rcScale
    obtain ⟨cum, hcum⟩ := h.ok_of_disjoint harith fun f hmem har =>
      absurd (hmem.symm.trans har) (by decide)
    exact levelSafe_of_btV3DistributionR hcum
  have hfit : FitCounts B p w → Throws Memory (btV3DistributionR B true (reader p w) rcScale) :=
    fun hc => btV3DistributionR_throws (throws_activeAt hp w) fun lv hlv =>
      (hc lv hlv).countsOk (levelOf_levelActives hlv)
  refine ⟨hfit, fun hslots h lv hlv => ?_, fun hslots hone => ⟨fun h lv hlv => ?_, hfit⟩⟩
  · have hok : CountsOk B (levelActives B (reader p w) lv) := hsafe hslots h lv hlv
    exact ⟨fun x hx => spread_ne_zero.1 (hok.spread x hx),
      fun x hx b => hok.quotient (levelOf_levelActives hlv) hx b,
      fun hne b => hok.exists_lt (levelOf_levelActives hlv) hne b⟩
  · exact (countsOk_iff (levelOf_levelActives hlv) (hone lv hlv)).1 (hsafe hslots h lv hlv)

/-- The window after the byte `A`. -/
def windowA : Window := ⟨[0x41], by decide⟩

/-- A total of `2^32-256` divides by zero, a count of `2^15` out of 1 is a negative index, and
one of `2^16` out of 1 overflows. -/
theorem btV3DistributionR_faults :
    (priorParse .plain (countImage 0xFFFFFF00 1) = .ok (some (countPrior 0xFFFFFF00 1)) ∧
      btV3DistributionR .plain true (reader (countPrior 0xFFFFFF00 1) windowA) rcScale =
        .error .divZero) ∧
    (priorParse .plain (countImage 1 (2 ^ 15)) = .ok (some (countPrior 1 (2 ^ 15))) ∧
      btV3DistributionR .plain true (reader (countPrior 1 (2 ^ 15)) windowA) rcScale =
        .error .lutIndex) ∧
    (priorParse .plain (countImage 1 (2 ^ 16)) = .ok (some (countPrior 1 (2 ^ 16))) ∧
      btV3DistributionR .plain true (reader (countPrior 1 (2 ^ 16)) windowA) rcScale =
        .error .overflow) := by
  refine ⟨⟨priorParse_countImage (by decide +kernel), ?_⟩,
    ⟨priorParse_countImage (by decide +kernel), ?_⟩,
    ⟨priorParse_countImage (by decide +kernel), ?_⟩⟩
  · exact map_eq_error (f := fun _ => ()) (by decide +kernel)
  · exact map_eq_error (f := fun _ => ()) (by decide +kernel)
  · exact map_eq_error (f := fun _ => ()) (by decide +kernel)

theorem btV3DistributionR_safe_countImage :
    (FitCounts .plain (countPrior 1 1) windowA →
      Throws Memory (btV3DistributionR .plain true (reader (countPrior 1 1) windowA) rcScale)) ∧
    ((countPrior 1 1).snap.ctxNslots ≤ 2 ^ 32 →
      Throws Memory (btV3DistributionR .plain true (reader (countPrior 1 1) windowA) rcScale) →
      ∀ lv ∈ levels, (∀ x ∈ levelActives .plain (reader (countPrior 1 1) windowA) lv,
          x.cc.totalFreq.toNat + 256 ≠ 2 ^ 32) ∧
        (∀ x ∈ levelActives .plain (reader (countPrior 1 1) windowA) lv, ∀ b,
          (actFreq x.chain b).toNat * Build.plain.pres < 2 ^ 31 * x.cc.totalFreq.toNat ∨
            2 ^ 32 * x.cc.totalFreq.toNat ≤ (actFreq x.chain b).toNat * Build.plain.pres) ∧
        (levelActives .plain (reader (countPrior 1 1) windowA) lv ≠ [] → ∀ b,
          ∃ x ∈ levelActives .plain (reader (countPrior 1 1) windowA) lv,
            (actFreq x.chain b).toNat < 128 * x.cc.totalFreq.toNat)) ∧
    ((countPrior 1 1).snap.ctxNslots ≤ 2 ^ 32 →
      (∀ lv ∈ levels, (levelActives .plain (reader (countPrior 1 1) windowA) lv).length ≤ 1) →
      (Throws Memory (btV3DistributionR .plain true (reader (countPrior 1 1) windowA) rcScale) ↔
        FitCounts .plain (countPrior 1 1) windowA)) :=
  btV3DistributionR_safe priorParse_countImage_one windowA

end Bcb.Codec
