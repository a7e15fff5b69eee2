import Mathlib

/-! Labelled runs of an arbitrary step relation. A run keeps every label in
the order it happened, so a property of a history and a property of a state
are proved by one induction over the last step. -/
namespace Neonos.Runs

/-- The states reached from a start by consecutive steps, with their labels. -/
inductive Run (step : σ → ε → σ → Prop) : σ → List ε → σ → Prop where
  | nil : Run step s [] s
  | snoc (before : Run step s events m) (last : step m e t) : Run step s (events ++ [e]) t

theorem Run.append (first : Run step s before m) (second : Run step m after t) :
    Run step s (before ++ after) t := by
  induction second with
  | nil => simpa using first
  | snoc _ last ih => rw [← List.append_assoc]; exact .snoc ih last

theorem Run.single (only : step s e t) : Run step s [e] t := by
  simpa using Run.snoc Run.nil only

/-- A history splits at every position, through the state reached there. -/
theorem Run.split (run : Run step s (before ++ after) t) :
    ∃ m, Run step s before m ∧ Run step m after t := by
  induction after using List.reverseRecOn generalizing t with
  | nil => exact ⟨t, by simpa using run, .nil⟩
  | append_singleton after e ih =>
    rw [← List.append_assoc] at run
    generalize shape : before ++ after ++ [e] = events at run
    cases run with
    | nil => simp at shape
    | snoc earlier last =>
      obtain ⟨rfl, rest⟩ := List.append_inj' shape rfl
      cases List.singleton_inj.mp rest
      obtain ⟨m, first, second⟩ := ih earlier
      exact ⟨m, first, .snoc second last⟩

theorem Run.cons (first : step s e m) (rest : Run step m events t) :
    Run step s (e :: events) t :=
  Run.append (Run.single first) rest

theorem Run.of_nil (run : Run step s [] t) : s = t := by
  generalize empty : ([] : List _) = none at run
  cases run with
  | nil => rfl
  | snoc => simp at empty

theorem Run.of_single (run : Run step s [e] t) : step s e t := by
  generalize shape : [e] = single at run
  cases run with
  | nil => simp at shape
  | snoc earlier last =>
    have nothing := List.append_eq_singleton_iff.mp shape.symm
    simp only [List.cons_ne_nil, and_false, or_false, List.cons.injEq, and_true] at nothing
    obtain ⟨rfl, rfl⟩ := nothing
    rw [earlier.of_nil]
    exact last

theorem Run.uncons (run : Run step s (e :: events) t) :
    ∃ m, step s e m ∧ Run step m events t := by
  have grouped : Run step s ([e] ++ events) t := by simpa using run
  obtain ⟨m, first, second⟩ := grouped.split
  exact ⟨m, first.of_single, second⟩

/-- What every step keeps, every run keeps. -/
theorem Run.preserves (kept : σ → Prop) (run : Run step s events t)
    (keeps : ∀ s e t, kept s → step s e t → kept t) (start : kept s) : kept t := by
  induction run with
  | nil => exact start
  | snoc _ last ih => exact keeps _ _ _ ih last

/-- A relation between a history and the state it leads to. -/
theorem Run.records (fits : List ε → σ → Prop) (run : Run step s events t)
    (start : fits [] s)
    (extends_ : ∀ events s e t, fits events s → step s e t → fits (events ++ [e]) t) :
    fits events t := by
  induction run with
  | nil => exact start
  | snoc _ last ih => exact extends_ _ _ _ _ ih last

/-- Every label of a run was taken from a state the run reached before it. -/
theorem Run.taken (run : Run step s events t) (member : e ∈ events) :
    ∃ before m m' after, events = before ++ e :: after ∧ Run step s before m ∧ step m e m' ∧
      Run step m' after t := by
  obtain ⟨before, after, rfl⟩ := List.append_of_mem member
  obtain ⟨m, first, second⟩ := run.split
  obtain ⟨m', taken, rest⟩ := second.uncons
  exact ⟨before, m, m', after, rfl, first, taken, rest⟩

/-- A step relation that leaves no choice has one run from each start to where
it stops. -/
theorem Run.stops_once (deterministic : ∀ s e e' t t', step s e t → step s e' t' → e = e' ∧ t = t')
    (run : Run step s events t) (run' : Run step s events' t') (stuck : ∀ e u, ¬ step t e u)
    (stuck' : ∀ e u, ¬ step t' e u) : events = events' ∧ t = t' := by
  induction events generalizing s events' with
  | nil =>
    obtain rfl := run.of_nil
    cases events' with
    | nil => exact ⟨rfl, run'.of_nil⟩
    | cons e events' =>
      obtain ⟨m, first, -⟩ := run'.uncons
      exact absurd first (stuck e m)
  | cons e events ih =>
    obtain ⟨m, first, rest⟩ := run.uncons
    cases events' with
    | nil =>
      obtain rfl := run'.of_nil
      exact absurd first (stuck' e m)
    | cons e' events' =>
      obtain ⟨m', first', rest'⟩ := run'.uncons
      obtain ⟨rfl, rfl⟩ := deterministic s e e' m m' first first'
      obtain ⟨rfl, same⟩ := ih rest rest'
      exact ⟨rfl, same⟩

/-- Steps that can only follow one run to its end never leave it: whatever they
have done so far is a first part of it. -/
theorem Run.tracks {step' : τ → ε' → τ → Prop} (related : σ → τ → Prop) (name : ε → ε')
    (whole : Run step s events final) (start : related s u)
    (follows : ∀ m e m' v e' v', e ∈ events → related m v → step m e m' → step' v e' v' →
      e' = name e ∧ related m' v')
    (stops : ∀ v e' v', related final v → ¬ step' v e' v') (run : Run step' u events' v) :
    ∃ before m rest, events = before ++ rest ∧ events' = before.map name ∧ Run step m rest final ∧
      related m v := by
  induction run with
  | nil => exact ⟨[], s, events, rfl, rfl, whole, start⟩
  | @snoc events' v e' v' _ last ih =>
    obtain ⟨before, m, rest, rfl, rfl, ahead, here⟩ := ih
    cases rest with
    | nil =>
      obtain rfl := ahead.of_nil
      exact absurd last (stops v e' v' here)
    | cons e rest =>
      obtain ⟨m', next, ahead⟩ := ahead.uncons
      obtain ⟨rfl, here⟩ := follows m e m' v e' v' (by simp) here next last
      exact ⟨before ++ [e], m', rest, by simp, by simp, ahead, here⟩

/-- So many steps of a relation without labels. -/
inductive Steps (step : σ → σ → Prop) (s : σ) : Nat → σ → Prop where
  | refl : Steps step s 0 s
  | tail (before : Steps step s n m) (last : step m t) : Steps step s (n + 1) t

/-- Every path is one of so many steps. -/
theorem Steps.of_path {step : σ → σ → Prop} (path : Relation.ReflTransGen step s t) : ∃ n, Steps step s n t := by
  induction path with
  | refl => exact ⟨0, .refl⟩
  | tail _ last ih =>
    obtain ⟨n, before⟩ := ih
    exact ⟨n + 1, before.tail last⟩

end Neonos.Runs
