import Mathlib.Tactic.Common

namespace Bcb.Lib

variable {σ ι ο ε : Type}

/-- The runs from `init` whose calls are all `allowed` where they are made. -/
inductive Run (step : σ → ι → Except ε (ο × σ)) (allowed : List (ι × ο) → σ → ι → Prop)
    (init : σ) : List (ι × ο) → σ → Prop
  | start : Run step allowed init [] init
  | step {tr : List (ι × ο)} {s t : σ} {c : ι} {r : ο} : Run step allowed init tr s →
      allowed tr s c → step s c = .ok (r, t) → Run step allowed init (tr ++ [(c, r)]) t

namespace Run

variable {step : σ → ι → Except ε (ο × σ)} {allowed : List (ι × ο) → σ → ι → Prop} {init : σ}
  {tr : List (ι × ο)} {s : σ}

theorem invariant {I : List (ι × ο) → σ → Prop} (h : Run step allowed init tr s)
    (h0 : I [] init)
    (hstep : ∀ {tr s t c r}, I tr s → step s c = .ok (r, t) → I (tr ++ [(c, r)]) t) : I tr s := by
  induction h with
  | start => exact h0
  | step _ _ hs ih => exact hstep ih hs

/-- The calls of one party run on their own, where the others leave its view alone.  The view
is followed as long as it is `live`, and a live view has been live since the start. -/
theorem isolate {own : ι → Bool} {live : σ → Prop} {view : σ → σ → Prop}
    (h : Run step allowed init tr s) (hlive : live s) (hinit : view init init)
    (hback : ∀ {s t c r}, step s c = .ok (r, t) → live t → live s)
    (hown : ∀ {tr s s' t c r}, Run step allowed init tr s → allowed tr s c → live s →
      view s s' → own c = true → step s c = .ok (r, t) →
      ∃ t', step s' c = .ok (r, t') ∧ view t t')
    (hother : ∀ {s s' t c r}, live t → view s s' → own c = false →
      step s c = .ok (r, t) → view t s') :
    ∃ s', Run step (fun _ _ _ => True) init (tr.filter fun x => own x.1) s' ∧ view s s' := by
  induction h with
  | start => exact ⟨init, .start, hinit⟩
  | @step tr s t c r hrun hallowed hs ih =>
    obtain ⟨s', hrun', hview⟩ := ih (hback hs hlive)
    cases hc : own c with
    | true =>
      obtain ⟨t', hs', hview'⟩ := hown hrun hallowed (hback hs hlive) hview hc hs
      refine ⟨t', ?_, hview'⟩
      simp only [List.filter_append, List.filter_cons, List.filter_nil, hc, if_true]
      exact .step hrun' trivial hs'
    | false =>
      refine ⟨s', ?_, hother hlive hview hc hs⟩
      simp only [List.filter_append, List.filter_cons, List.filter_nil, hc, Bool.false_eq_true,
        if_false, List.append_nil]
      exact hrun'

end Run

end Bcb.Lib
