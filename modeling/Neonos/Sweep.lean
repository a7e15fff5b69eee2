import Mathlib

/-! Loops that visit each index of a table once and rewrite only the entry they
visit. Such a loop is a pointwise map, whatever the visiting order. -/
namespace Neonos.Sweep

universe u v
variable {ι : Type u} {α : Type v} [DecidableEq ι]

/-- The table after the entries of `visited` have been rewritten. -/
def swept (rewrite : ι → α → α) (visited : List ι) (table : ι → α) : ι → α :=
  fun i => if i ∈ visited then rewrite i (table i) else table i

variable {rewrite : ι → α → α} {i : ι} {visited : List ι}

theorem swept_nil (table : ι → α) : swept rewrite [] table = table := by
  funext i
  simp [swept]

theorem swept_cons (fresh : i ∉ visited) (table : ι → α) :
    swept rewrite visited (Function.update table i (rewrite i (table i))) =
      swept rewrite (i :: visited) table := by
  funext j
  by_cases same : j = i
  · subst same
    simp [swept, fresh]
  · simp [swept, same]

/-- A sweep in any monad whose turns all succeed. -/
theorem foldlM_swept {m : Type max u v → Type _} [Monad m] [LawfulMonad m] {turn : (ι → α) → ι → m (ι → α)}
    (each : ∀ table i, turn table i = pure (Function.update table i (rewrite i (table i))))
    (visited : List ι) (distinct : visited.Nodup) (table : ι → α) :
    visited.foldlM turn table = pure (swept rewrite visited table) := by
  induction visited generalizing table with
  | nil => simp [swept_nil]
  | cons i visited ih =>
    obtain ⟨fresh, rest⟩ := List.nodup_cons.mp distinct
    rw [List.foldlM_cons, each, pure_bind, ih rest, swept_cons fresh]

theorem swept_all (every : ∀ i, i ∈ visited) (table : ι → α) :
    swept rewrite visited table = fun i => rewrite i (table i) := by
  funext i
  simp [swept, every i]

end Neonos.Sweep
