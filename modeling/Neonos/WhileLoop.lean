import Neonos.Runs

/-! A `while` loop whose body can raise, as the relation between the state it
starts in and what it ends with, and as a bounded computation. -/
namespace Neonos.WhileLoop
open Runs

section loop
variable (going : σ → Prop) (body : σ → Except ε σ)

/-- How the loop ends, if it ends. -/
inductive Ends : σ → Except ε σ → Prop where
  | stop (stopped : ¬ going s) : Ends s (.ok s)
  | raise (on : going s) (raised : body s = .error e) : Ends s (.error e)
  | turn (on : going s) (next : body s = .ok m) (rest : Ends m r) : Ends s r

/-- Some turns of the loop. -/
inductive Turns : σ → σ → Prop where
  | done : Turns s s
  | turn (on : going s) (next : body s = .ok m) (rest : Turns m t) : Turns s t

/-- One turn as a step, labelled by the state it starts from. -/
def Turn (s head t : σ) : Prop := head = s ∧ going s ∧ body s = .ok t

/-- The loop with a bound on its turns; nothing comes out when they run out. -/
def loop [DecidablePred going] : Nat → σ → Option (Except ε σ)
  | 0, s => if going s then none else some (.ok s)
  | fuel + 1, s =>
    if going s then
      match body s with
      | .ok m => loop fuel m
      | .error e => some (.error e)
    else some (.ok s)

end loop

variable {going : σ → Prop} {body : σ → Except ε σ}

theorem Ends.unique (first : Ends going body s r) (second : Ends going body s r') : r = r' := by
  induction first with
  | stop stopped =>
    cases second with
    | stop => rfl
    | raise on | turn on => exact absurd on stopped
  | raise on raised =>
    cases second with
    | stop stopped => exact absurd on stopped
    | raise _ raised' => exact raised.symm.trans raised'
    | turn _ next => exact absurd (raised.symm.trans next) nofun
  | turn on next _ ih =>
    cases second with
    | stop stopped => exact absurd on stopped
    | raise _ raised => exact absurd (next.symm.trans raised) nofun
    | turn _ next' rest' =>
      cases next.symm.trans next'
      exact ih rest'

/-- A loop ends in one way behind one first turn. -/
theorem Ends.same_turn (on : going s) (on' : going s') (same : body s = body s') (ends : Ends going body s r) :
    Ends going body s' r := by
  cases ends with
  | stop stopped => exact absurd on stopped
  | raise _ raised => exact .raise on' (same.symm.trans raised)
  | turn _ next rest => exact .turn on' (same.symm.trans next) rest

/-- Enough turns compute how the loop ends. -/
theorem Ends.loop [DecidablePred going] (ends : Ends going body s r) :
    ∃ fuel, loop going body fuel s = some r := by
  induction ends with
  | stop stopped => exact ⟨0, if_neg stopped⟩
  | raise on raised =>
    refine ⟨1, ?_⟩
    unfold WhileLoop.loop
    rw [if_pos on, raised]
  | turn on next _ ih =>
    obtain ⟨fuel, ran⟩ := ih
    refine ⟨fuel + 1, ?_⟩
    unfold WhileLoop.loop
    rw [if_pos on, next]
    exact ran

/-- More turns than enough change nothing. -/
theorem loop_more [DecidablePred going] (ran : loop going body fuel s = some r) (more : fuel ≤ fuel') :
    loop going body fuel' s = some r := by
  induction fuel generalizing s fuel' with
  | zero =>
    unfold loop at ran
    split at ran
    · cases ran
    · rename_i stopped
      cases fuel' <;> exact (if_neg stopped).trans ran
  | succ fuel ih =>
    obtain ⟨fuel', rfl⟩ := Nat.exists_eq_add_of_le' (Nat.le_of_add_left_le more)
    unfold loop at ran ⊢
    split at ran
    · rename_i on
      rw [if_pos on]
      split at ran
      · exact ih ran (Nat.le_of_succ_le_succ more)
      · exact ran
    · rename_i stopped
      rw [if_neg stopped]
      exact ran

/-- The invariant rule, for a body that cannot raise where the invariant holds. -/
theorem Ends.invariant {kept : σ → Prop} (ends : Ends going body s r)
    (keeps : ∀ s, kept s → going s → ∃ m, body s = .ok m ∧ kept m) (start : kept s) :
    ∃ t, r = .ok t ∧ kept t ∧ ¬ going t := by
  induction ends with
  | stop stopped => exact ⟨_, rfl, start, stopped⟩
  | raise on raised =>
    obtain ⟨m, next, -⟩ := keeps _ start on
    exact absurd (raised.symm.trans next) nofun
  | turn on next _ ih =>
    obtain ⟨m, next', mine⟩ := keeps _ start on
    cases next.symm.trans next'
    exact ih mine

/-- The variant rule: a loop with an invariant and a decreasing measure ends. -/
theorem ends_of_variant {kept : σ → Prop} (measure : σ → Nat)
    (keeps : ∀ s, kept s → going s → ∃ m, body s = .ok m ∧ kept m ∧ measure m < measure s)
    (start : kept s) : ∃ t, Ends going body s (.ok t) ∧ kept t ∧ ¬ going t := by
  generalize bound : measure s = size
  induction size using Nat.strongRecOn generalizing s with
  | ind size ih =>
    by_cases on : going s
    · obtain ⟨m, next, mine, less⟩ := keeps s start on
      obtain ⟨t, rest, ended⟩ := ih (measure m) (bound ▸ less) mine rfl
      exact ⟨t, .turn on next rest, ended⟩
    · exact ⟨s, .stop on, start, on⟩

/-- Two loops in step: what relates their states at every turn relates their ends. -/
theorem Ends.alongside {going' : τ → Prop} {body' : τ → Except ε' τ}
    (ends : Ends going body s (.ok t)) (related : σ → τ → Prop) (ends' : Ends going' body' s' (.ok t'))
    (together : ∀ s s', related s s' → (going s ↔ going' s'))
    (step : ∀ s s' m m', related s s' → going s → body s = .ok m → body' s' = .ok m' → related m m')
    (start : related s s') : related t t' := by
  generalize final : Except.ok t = r at ends
  induction ends generalizing s' with
  | stop stopped =>
    cases final
    cases ends' with
    | stop => exact start
    | turn on => exact absurd ((together _ _ start).mpr on) stopped
  | raise => cases final
  | turn on next _ ih =>
    cases ends' with
    | stop stopped => exact absurd ((together _ _ start).mp on) stopped
    | turn _ next' rest' => exact ih rest' (step _ _ _ _ start on next next') final

theorem Turns.ends (turns : Turns going body s m) (ends : Ends going body m r) : Ends going body s r := by
  induction turns with
  | done => exact ends
  | turn on next _ ih => exact .turn on next (ih ends)

/-- Behind some turns the loop still ends as it did. -/
theorem Turns.rest (turns : Turns going body s m) (ends : Ends going body s r) : Ends going body m r := by
  induction turns with
  | done => exact ends
  | turn on next _ ih =>
    cases ends with
    | stop stopped => exact absurd on stopped
    | raise _ raised => exact absurd (next.symm.trans raised) (by simp)
    | turn _ next' rest =>
      cases next.symm.trans next'
      exact ih rest

theorem Turns.append (first : Turns going body s m) (second : Turns going body m t) : Turns going body s t := by
  induction first with
  | done => exact second
  | turn on next _ ih => exact .turn on next (ih second)

theorem Turns.once (on : going s) (next : body s = .ok m) : Turns going body s m := .turn on next .done

/-- The simulation rule: another loop that answers each turn with some turns of
its own ends in a related state. -/
theorem Ends.simulated {going' : τ → Prop} {body' : τ → Except ε' τ} {related : σ → τ → Prop}
    (ends : Ends going body s (.ok t))
    (answer : ∀ s s' m, related s s' → going s → body s = .ok m → ∃ m', Turns going' body' s' m' ∧ related m m')
    (stop : ∀ s s', related s s' → ¬ going s → ¬ going' s') (start : related s s') :
    ∃ t', Ends going' body' s' (.ok t') ∧ related t t' := by
  generalize final : Except.ok t = r at ends
  induction ends generalizing s' with
  | stop stopped =>
    cases final
    exact ⟨s', .stop (stop _ _ start stopped), start⟩
  | raise => cases final
  | turn on next _ ih =>
    obtain ⟨m', turns, related'⟩ := answer _ _ _ start on next
    obtain ⟨t', ends', ended⟩ := ih related' final
    exact ⟨t', turns.ends ends', ended⟩

/-- Two loops in step until they part, each with the rest of its run ahead. -/
theorem Ends.partway {going' : τ → Prop} {body' : τ → Except ε' τ} {related parted : σ → τ → Prop}
    (ends : Ends going body s (.ok t)) (ends' : Ends going' body' s' (.ok t'))
    (step : ∀ s s', related s s' → parted s s' ∨ going s ∧ going' s' ∧
      ∀ m m', body s = .ok m → body' s' = .ok m' → related m m')
    (start : related s s') :
    ∃ m m', parted m m' ∧ Ends going body m (.ok t) ∧ Ends going' body' m' (.ok t') := by
  generalize final : Except.ok t = r at ends
  induction ends generalizing s' with
  | stop stopped =>
    cases final
    rcases step _ _ start with apart | ⟨on, -⟩
    · exact ⟨_, s', apart, .stop stopped, ends'⟩
    · exact absurd on stopped
  | raise => cases final
  | turn on next rest ih =>
    rcases step _ _ start with apart | ⟨-, on', together⟩
    · subst final
      exact ⟨_, s', apart, .turn on next rest, ends'⟩
    · cases ends' with
      | stop stopped => exact absurd on' stopped
      | turn _ next' rest' => exact ih rest' (together _ _ next next') final

/-! ### The turns of a loop as a history -/

theorem Ends.history (ends : Ends going body s (.ok t)) :
    ∃ heads, Run (Turn going body) s heads t ∧ ¬ going t := by
  generalize final : Except.ok t = r at ends
  induction ends with
  | stop stopped =>
    cases final
    exact ⟨[], .nil, stopped⟩
  | raise => cases final
  | @turn s m r on next rest ih =>
    obtain ⟨heads, run, stopped⟩ := ih final
    exact ⟨s :: heads, .cons ⟨rfl, on, next⟩ run, stopped⟩

end Neonos.WhileLoop
