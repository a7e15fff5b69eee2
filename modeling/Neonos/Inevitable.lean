import Mathlib

/-! What a system gets to whichever way it goes: no way on is endless before
the goal and none is stuck before it. -/
namespace Neonos

/-- Every way on from here gets to the goal. -/
inductive Inevitably (step : σ → σ → Prop) (goal : σ → Prop) : σ → Prop where
  | now (here : goal s) : Inevitably step goal s
  | later (going : step s t) (all : ∀ t, step s t → Inevitably step goal t) : Inevitably step goal s

namespace Inevitably

variable {step : σ → σ → Prop} {goal middle : σ → Prop} {s t : σ}

theorem andThen (first : Inevitably step middle s) (rest : ∀ t, middle t → Inevitably step goal t) :
    Inevitably step goal s := by
  induction first with
  | now here => exact rest _ here
  | later going _ ih => exact .later going ih

theorem mono (inevitable : Inevitably step middle s) (weaker : ∀ t, middle t → goal t) :
    Inevitably step goal s :=
  inevitable.andThen fun t here => .now (weaker t here)

/-- One step that leaves no choice. -/
theorem once (going : step s t) (only : ∀ u, step s u → u = t) (rest : Inevitably step goal t) :
    Inevitably step goal s := by
  refine .later going fun u other => ?_
  rw [only u other]
  exact rest

/-- A system that another one follows step by step, and that is not stuck where
the other goes on, gets to what the other gets to. -/
theorem simulated {abstract : τ → τ → Prop} {aim : τ → Prop} (related : σ → τ → Prop)
    (follows : ∀ s x s', related s x → step s s' → ∃ x', abstract x x' ∧ related s' x')
    (goes : ∀ s x x', related s x → abstract x x' → ∃ s', step s s')
    (there : ∀ s x, related s x → aim x → goal s)
    (inevitable : Inevitably abstract aim x) (here : related s x) : Inevitably step goal s := by
  induction inevitable generalizing s with
  | now reached => exact .now (there s _ here reached)
  | later going _ ih =>
    obtain ⟨s', on⟩ := goes s _ _ here going
    refine .later on fun t next => ?_
    obtain ⟨x', path, related⟩ := follows s _ t here next
    exact ih x' path related

end Inevitably

end Neonos
