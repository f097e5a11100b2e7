import Bcb.Bt.Distribution
import Bcb.Bt.Lookups

namespace Bcb.Bt

open Lib

/-- The faults of arithmetic and of the lookup tables. -/
def Arithmetic (f : Fault) : Prop := f.isMemory = false

variable {B : Build} {luts : Bool} {r : BtV3Reader}

theorem throws_i64 (x : Int) : Throws Arithmetic (i64 x) := by
  unfold i64
  split_ifs
  · exact .ok x
  · exact .throw rfl

theorem throws_i64Div (a b : Int) : Throws Arithmetic (i64Div a b) := by
  unfold i64Div
  split_ifs
  · exact .throw rfl
  · exact .ok _

theorem throws_readConfLog2 (i : Int) : Throws Arithmetic (readConfLog2 B luts i) := by
  unfold readConfLog2
  split_ifs
  · exact .throw rfl
  · exact .ok _
  · exact .throw rfl

theorem throws_readExp2Frac (f : Nat) : Throws Arithmetic (readExp2Frac B luts f) := by
  unfold readExp2Frac
  split_ifs
  · exact .throw rfl
  · exact .ok _
  · exact .throw rfl

theorem throws_exp2W (norm : Int) : Throws Arithmetic (exp2W B luts norm) := by
  apply Throws.bind (throws_i64 _)
  intro neg _
  dsimp only
  split_ifs
  · exact .ok 0
  · apply Throws.bind (throws_readExp2Frac _)
    intro fr _
    unfold shiftRight
    split_ifs
    · exact .throw rfl
    · exact .ok _

theorem throws_act (n : Nat) (total : UInt32) (chain : List BtEntry) :
    Throws Arithmetic (act B luts n total chain) := by
  apply Throws.bind (throws_i64Div _ _)
  intro q _
  apply Throws.bind (throws_readConfLog2 _)
  intro c _
  apply Throws.bind (throws_i64 _)
  intro l0 _
  apply Throws.bind (throws_i64Div _ _)
  exact fun p0 _ => .ok _

theorem throws_actTerm (b : UInt8) (a : Act) : Throws Arithmetic (actTerm B luts b a) := by
  unfold actTerm
  split_ifs
  · exact .ok _
  · apply Throws.bind (throws_i64 _)
    intro x _
    apply Throws.bind (throws_i64Div _ _)
    intro q _
    apply Throws.bind (throws_readConfLog2 _)
    intro c _
    apply Throws.bind (throws_i64 _)
    intro l _
    apply Throws.bind (throws_i64 _)
    intro y _
    apply Throws.bind (throws_i64Div _ _)
    exact fun p _ => .ok _

theorem throws_weigh (terms : List (Int × Int)) : Throws Arithmetic (weigh B luts terms) := by
  have hterm : ∀ s, ∀ t ∈ terms, Throws Arithmetic (weighTerm B luts (maxL terms) s t) := by
    intro s t _
    apply Throws.bind (throws_i64 _)
    intro norm _
    apply Throws.bind (throws_exp2W _)
    intro w _
    apply Throws.bind (throws_i64 _)
    intro x _
    apply Throws.bind (throws_i64 _)
    intro num _
    apply Throws.bind (throws_i64 _)
    exact fun den _ => .ok _
  apply Throws.bind (Throws.foldlM hterm (0, 0))
  rintro ⟨num, den⟩ _
  dsimp only
  split_ifs
  · exact Throws.bind (throws_i64Div _ _) fun _ _ => .ok _
  · exact .ok none

theorem throws_addAt (b : UInt8) (x y : Int) (s : Sums) : Throws Arithmetic (addAt b x y s) := by
  apply Throws.bind (throws_i64 _)
  intro ws _
  apply Throws.bind (throws_i64 _)
  exact fun wt _ => .ok _

theorem throws_addDefault (wint : Nat) (deflt : Option Int) (s : Sums) :
    Throws Arithmetic (addDefault wint deflt s) := by
  cases deflt with
  | none => exact .ok s
  | some v =>
    apply Throws.bind (throws_i64 _)
    exact fun x _ => Throws.foldlM (fun s b _ => throws_addAt b x wint s) s

theorem throws_dropDefault (wint : Nat) (deflt : Option Int) (b : UInt8) (s : Sums) :
    Throws Arithmetic (dropDefault wint deflt b s) := by
  cases deflt with
  | none => exact .ok s
  | some v => exact Throws.bind (throws_i64 _) fun x _ => throws_addAt b (-x) (-wint) s

theorem throws_addOwn (wint : Nat) (prob : Option Int) (b : UInt8) (s : Sums) :
    Throws Arithmetic (addOwn wint prob b s) := by
  cases prob with
  | none => exact .ok s
  | some v => exact Throws.bind (throws_i64 _) fun x _ => throws_addAt b x wint s

theorem throws_observed (wint : Nat) (acts : List Act) (deflt : Option Int) (s : Sums)
    (b : UInt8) : Throws Arithmetic (observed B luts wint acts deflt s b) := by
  apply Throws.bind (Throws.mapM fun a _ => throws_actTerm b a)
  intro terms _
  apply Throws.bind (throws_weigh terms)
  intro prob _
  apply Throws.bind (throws_dropDefault wint deflt b s)
  exact fun s' _ => throws_addOwn wint prob b s'

theorem throws_combineLevel (wint : Nat) (acts : List Act) (obs : List UInt8) (s : Sums) :
    Throws Arithmetic (combineLevel B luts wint acts obs s) := by
  unfold combineLevel
  split_ifs
  · exact .ok s
  · apply Throws.bind (throws_weigh _)
    intro deflt _
    apply Throws.bind (throws_addDefault wint deflt s)
    exact fun s' _ => Throws.foldlM (fun s b _ => throws_observed wint acts deflt s b) s'

theorem throws_scanLevel (h : ∀ n, Throws Arithmetic (activeAt B r n)) (ns : List Nat)
    (st : List Act × List UInt8) :
    Throws Arithmetic (scanLevel B luts r ns st) := by
  induction ns generalizing st with
  | nil => exact .ok st
  | cons n ns ih =>
    obtain ⟨acts, obs⟩ := st
    rw [scanLevel]
    apply (h n).bind
    intro o _
    cases o with
    | none => exact ih (acts, obs)
    | some x => exact (throws_act _ _ _).bind fun a _ => ih _

theorem throws_distLevel (h : ∀ n, Throws Arithmetic (activeAt B r n)) (s : Sums) (lv : BtLevel) :
    Throws Arithmetic (distLevel B luts r s lv) := by
  apply Throws.bind (throws_scanLevel h _ _)
  exact fun x _ => throws_combineLevel _ _ _ _

theorem throws_meanProb (s : Int × Int) : Throws Arithmetic (meanProb s) := by
  unfold meanProb
  split_ifs
  · exact throws_i64Div _ _
  · exact .ok _

theorem throws_scaleProb (scale : Nat) (s prob : Int) :
    Throws Arithmetic (scaleProb scale s prob) := by
  apply Throws.bind (throws_i64 _)
  intro x _
  apply Throws.bind (throws_i64 _)
  intro num _
  apply Throws.bind (throws_i64 _)
  intro y _
  apply Throws.bind (throws_i64Div _ _)
  intro q _
  apply Throws.bind (throws_i64 _)
  exact fun w _ => .ok _

theorem throws_probs (h : ∀ n, Throws Arithmetic (activeAt B r n)) :
    Throws Arithmetic (probs B luts r) := by
  unfold probs
  split_ifs
  · exact .ok _
  · apply Throws.bind (Throws.foldlM (fun s lv _ => throws_distLevel h s lv) _)
    exact fun s _ => Throws.mapM fun b _ => Throws.bind (throws_meanProb (s b)) fun _ _ => .ok _

/-- What the lookups do not throw, nothing throws but the arithmetic. -/
theorem throws_of_lookups (luts : Bool) (h : ∀ n, Throws Arithmetic (activeAt B r n))
    (scale : Nat) : Throws Arithmetic (btV3DistributionR B luts r scale) := by
  apply Throws.bind (throws_probs h)
  intro ps _
  apply Throws.bind (Throws.foldlM (fun s p _ => throws_i64 (s + p)) 0)
  intro s _
  split_ifs
  · exact .ok _
  · apply Throws.bind (Throws.mapM fun p _ => throws_scaleProb scale s p)
    exact fun ws _ => .ok _

theorem throws_btV3DistributionR (luts : Bool) (h : Sound B r) (scale : Nat) :
    Throws Arithmetic (btV3DistributionR B luts r scale) :=
  throws_of_lookups luts (fun n => .of_ok (activeAt_ok h n)) scale

end Bcb.Bt
