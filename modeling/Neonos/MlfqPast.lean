import Neonos.MlfqTrace
import Neonos.SchedulingPast

/-! The MLFQ simulator cannot see the future either: jobs that arrive at a time
or later change no tick before that time, whatever they do to the boosts. -/
namespace Neonos.Mlfq
open StableChoice WhileLoop

variable {w : Workload n} {v : Workload (n + k)} {policy : Policy} {period limit : Nat} {s t a : State n}
  {s' t' b : State (n + k)} {i j : Fin n}

/-- The ticks before `limit`. -/
def past (limit : Nat) (trace : List (Tick ι)) : List (Tick ι) := trace.filter fun x => x.time < limit

/-! ### What a pass leaves alone -/

theorem poised_now (s : State n) (policy : Policy) (period : Nat) : (s.poised policy period).now = s.now ∧
    (s.poised policy period).trace = s.trace := by
  obtain ⟨-, trace, now, -⟩ := boost_other s.scan policy period
  rw [scan_trace] at trace
  rw [scan_now] at now
  unfold State.poised
  rcases dispatch_cases (s.scan.boost policy period) policy with ⟨i, -, -, same⟩ | ⟨-, same⟩ <;> rw [same] <;>
    exact ⟨now, trace⟩

/-- Whoever sleeps after the scan slept before. -/
theorem poised_sleeps (sleeps : ((s.poised policy period).entries i).Sleeps) :
    (s.entries i).Sleeps ∧ ((s.poised policy period).entries i).wake = (s.entries i).wake := by
  obtain ⟨-, -, -, -, -, entries⟩ := boost_other s.scan policy period
  obtain ⟨level, slice, allot, same⟩ := entries i
  have boosted (sleeps : ((s.scan.boost policy period).entries i).Sleeps) : (s.entries i).Sleeps ∧
      ((s.scan.boost policy period).entries i).wake = (s.entries i).wake := by
    rw [same, scan_entries] at sleeps ⊢
    obtain ⟨still, asleep, -⟩ := woken_sleeps sleeps
    rw [still]
    exact ⟨asleep, rfl⟩
  unfold State.poised at sleeps ⊢
  rcases dispatch_cases (s.scan.boost policy period) policy with ⟨k, -, -, given⟩ | ⟨-, given⟩ <;>
    rw [given] at sleeps ⊢
  · by_cases own : i = k
    · subst own
      simp [Entry.Sleeps, Entry.taken] at sleeps
    · simp only [Function.update_of_ne own] at sleeps ⊢
      exact boosted sleeps
  · exact boosted sleeps

/-- Whoever has the processor had it before or has been taken from the ready list. -/
theorem poised_current (current : (s.poised policy period).current = some i) :
    s.current = some i ∨ i ∈ s.scan.ready := by
  obtain ⟨ready, -, -, now, -⟩ := boost_other s.scan policy period
  unfold State.poised at current
  rcases dispatch_cases (s.scan.boost policy period) policy with ⟨k, -, chosen, given⟩ | ⟨-, given⟩ <;>
    rw [given] at current
  · cases current
    exact .inr (ready ▸ choose_mem chosen)
  · rw [now, scan_current] at current
    exact .inl current

/-! ### From `limit` on -/

/-- Whatever runs from here on runs at `limit` or later. -/
def Beyond (limit : Nat) (s : State n) : Prop :=
  limit ≤ s.now ∨ s.current = none ∧ s.ready = [] ∧ ∀ i, (s.entries i).Sleeps → limit ≤ (s.entries i).wake

theorem Beyond.idle (beyond : Beyond limit s) (settled : Settled s) : Beyond limit s.idle := by
  rcases idle_cases s with ⟨i, sleeps, -, moved⟩ | ⟨-, moved⟩
  · rw [moved]
    rcases beyond with later | ⟨-, -, late⟩
    · exact .inl (later.trans (settled i sleeps).le)
    · exact .inl (late i sleeps)
  · rw [moved]
    exact beyond

theorem Beyond.poised (beyond : Beyond limit s) (policy : Policy) (period : Nat)
    (nobody : (s.poised policy period).current = none → (s.poised policy period).ready = []) :
    Beyond limit (s.poised policy period) := by
  by_cases later : limit ≤ s.now
  · exact .inl ((poised_now s policy period).1 ▸ later)
  · obtain ⟨free, none, late⟩ := beyond.resolve_left later
    have empty : s.scan.ready = [] := by
      rw [scan_ready, none, List.nil_append, List.filter_eq_nil_iff]
      intro i _ rises
      have due := (of_decide_eq_true rises).1
      exact later ((late i due.1).trans due.2)
    have still : (s.poised policy period).current = Option.none := by
      by_contra some
      obtain ⟨i, current⟩ := Option.ne_none_iff_exists'.mp some
      rcases poised_current current with before | taken
      · exact absurd (free.symm.trans before) nofun
      · rw [empty] at taken
        cases taken
    refine .inr ⟨still, nobody still, fun i sleeps => ?_⟩
    obtain ⟨asleep, same⟩ := poised_sleeps sleeps
    exact same ▸ late i asleep

theorem Beyond.pass (beyond : Beyond limit s) (head : AtHead w s) (next : w.pass policy period s = .ok t) :
    Beyond limit t ∧ past limit t.trace = past limit s.trace := by
  have poised := beyond.poised policy period (head.poised policy period).2.2
  have still := (poised_now s policy period).2
  obtain ⟨a, rfl, -, settled, ⟨-, -, same⟩ | ⟨i, current, -, same⟩⟩ := head.cases policy period
  · cases same.symm.trans next
    have trace : (s.poised policy period).idle.trace = (s.poised policy period).trace := by
      rcases idle_cases (s.poised policy period) with ⟨_, -, -, moved⟩ | ⟨-, moved⟩ <;> rw [moved]
    rw [trace, still]
    exact ⟨poised.idle settled, rfl⟩
  · cases same.symm.trans next
    obtain ⟨trace, now⟩ := tick_trace w policy (s.poised policy period) i
    have later : limit ≤ (s.poised policy period).now :=
      poised.resolve_right fun both => absurd (both.1.symm.trans current) nofun
    rw [trace, still, past, List.filter_append]
    refine ⟨.inl (by omega), ?_⟩
    simp [past, later]

theorem Beyond.ends (beyond : Beyond limit s) (head : AtHead w s) (leads : w.Leads policy period s t) :
    past limit t.trace = past limit s.trace := by
  obtain ⟨t', same, ⟨-, -, kept⟩, -⟩ : ∃ t', Except.ok t = .ok t' ∧
      (AtHead w t' ∧ Beyond limit t' ∧ past limit t'.trace = past limit s.trace) ∧ ¬ t'.Going := by
    apply Ends.invariant leads
    · rintro m ⟨head, beyond, kept⟩ -
      obtain ⟨m', next, head'⟩ := head.pass policy period
      obtain ⟨beyond', still⟩ := beyond.pass head next
      exact ⟨m', next, head', beyond', still.trans kept⟩
    · exact ⟨head, beyond, rfl⟩
  cases same
  exact kept

/-! ### Before `limit` -/

/-- `v` is `w` with further jobs at the end, none of which arrives before `limit`. -/
structure Extends (w : Workload n) (v : Workload (n + k)) (limit : Nat) : Prop where
  name : ∀ i, v.name (Fin.castAdd k i) = w.name i
  arrival : ∀ i, v.arrival (Fin.castAdd k i) = w.arrival i
  service : ∀ i, v.service (Fin.castAdd k i) = w.service i
  burst : ∀ i, v.burst (Fin.castAdd k i) = w.burst i
  wait : ∀ i, v.wait (Fin.castAdd k i) = w.wait i
  late : ∀ j, limit ≤ v.arrival (Fin.natAdd n j)

/-- A tick of the shorter list of jobs in the longer one. -/
def Tick.cast (k : Nat) (x : Tick (Fin n)) : Tick (Fin (n + k)) := ⟨x.time, Fin.castAdd k x.job, x.level⟩

/-- The further jobs are as they were at the start, everything else is the same. -/
structure InStep (v : Workload (n + k)) (period : Nat) (s : State n) (s' : State (n + k)) : Prop where
  now : s'.now = s.now
  ready : s'.ready = s.ready.map (Fin.castAdd k)
  current : s'.current = s.current.map (Fin.castAdd k)
  nextBoost : s'.nextBoost = s.nextBoost
  entries : ∀ i, s'.entries (Fin.castAdd k i) = s.entries i
  further : ∀ j, s'.entries (Fin.natAdd n j) = (v.start period).entries (Fin.natAdd n j)
  trace : s'.trace = s.trace.map (Tick.cast k)

theorem start_inStep (more : Extends w v limit) (period : Nat) :
    InStep v period (w.start period) (v.start period) := by
  refine ⟨rfl, rfl, rfl, rfl, fun i => ?_, fun j => rfl, rfl⟩
  simp only [Workload.start, more.service, more.arrival]

theorem finRange_add (n k : Nat) : List.finRange (n + k) =
    (List.finRange n).map (Fin.castAdd k) ++ (List.finRange k).map (Fin.natAdd n) := by
  simp only [List.finRange, List.ofFn_add, List.map_ofFn]
  rfl

theorem update_cast (f : Fin (n + k) → α) (f' : Fin n → α) (same : ∀ i, f (Fin.castAdd k i) = f' i) (i j : Fin n)
    (e : α) : Function.update f (Fin.castAdd k i) e (Fin.castAdd k j) = Function.update f' i e j := by
  by_cases own : j = i
  · subst own
    simp
  · have other : Fin.castAdd k j ≠ Fin.castAdd k i := (Fin.castAdd_injective n k).ne own
    rw [Function.update_of_ne other, Function.update_of_ne own, same]

theorem update_further (f : Fin (n + k) → α) (i : Fin n) (j : Fin k) (e : α) :
    Function.update f (Fin.castAdd k i) e (Fin.natAdd n j) = f (Fin.natAdd n j) := by
  apply Function.update_of_ne
  intro same
  have values := congrArg Fin.val same
  simp only [Fin.val_natAdd, Fin.val_castAdd] at values
  omega

theorem InStep.beyond (step : InStep v period s s') (more : Extends w v limit) (beyond : Beyond limit s) :
    Beyond limit s' := by
  rcases beyond with later | ⟨free, nobody, late⟩
  · exact .inl (step.now ▸ later)
  · refine .inr ⟨by rw [step.current, free]; rfl, by rw [step.ready, nobody]; rfl, fun j sleeps => ?_⟩
    induction j using Fin.addCases with
    | left i =>
      rw [step.entries] at sleeps ⊢
      exact late i sleeps
    | right j =>
      rw [step.further]
      exact more.late j

theorem InStep.scan (step : InStep v period s s') (more : Extends w v limit) (before : s.now < limit) :
    InStep v period s.scan s'.scan := by
  have asleep (j : Fin k) : woken s'.now (s'.entries (Fin.natAdd n j)) = s'.entries (Fin.natAdd n j) ∧
      ¬ Rises s'.now (s'.entries (Fin.natAdd n j)) := by
    have early : ¬ (s'.entries (Fin.natAdd n j)).wake ≤ s'.now := by
      rw [step.further, step.now]
      exact not_le.mpr (before.trans_le (more.late j))
    exact ⟨if_neg fun due => early due.2, fun rises => early rises.1.2⟩
  refine ⟨?_, ?_, ?_, ?_, fun i => ?_, fun j => ?_, ?_⟩
  · rw [scan_now, scan_now, step.now]
  · have none : ((List.finRange k).map (Fin.natAdd n)).filter (fun i => Rises s'.now (s'.entries i)) = [] := by
      rw [List.filter_eq_nil_iff]
      intro j member
      obtain ⟨j, -, rfl⟩ := List.mem_map.mp member
      simpa using (asleep j).2
    rw [scan_ready, scan_ready, finRange_add, List.filter_append, none, List.append_nil, step.ready,
      List.map_append, List.filter_map]
    congr 2
    apply List.filter_congr
    intro i _
    simp only [Function.comp_apply, step.entries, step.now]
  · rw [scan_current, scan_current, step.current]
  · rw [scan_nextBoost, scan_nextBoost, step.nextBoost]
  · rw [scan_entries, scan_entries, step.entries, step.now]
  · rw [scan_entries, (asleep j).1, step.further]
  · rw [scan_trace, scan_trace, step.trace]

theorem InStep.boost (step : InStep v period s s') (policy : Policy) :
    InStep v period (s.boost policy period) (s'.boost policy period) := by
  unfold State.boost
  rw [step.nextBoost, step.now]
  split
  · refine ⟨rfl, step.ready, step.current, rfl, fun i => ?_, fun j => ?_, step.trace⟩
    · simp only [step.entries]
    · simp [step.further, Workload.start]
  · exact step

theorem InStep.choose (step : InStep v period s s') (policy : Policy) :
    s'.choose policy = (s.choose policy).map (Fin.castAdd k) := by
  cases policy with
  | mlfq =>
    unfold State.choose
    rw [step.ready]
    refine least_map _ fun i j => ?_
    rw [step.entries, step.entries]
  | rr =>
    unfold State.choose
    rw [step.ready, List.head?_map]

theorem InStep.dispatch (step : InStep v period s s') (policy : Policy) :
    InStep v period (s.dispatch policy) (s'.dispatch policy) := by
  have choice := step.choose policy
  have current := step.current
  rcases dispatch_cases s policy with ⟨i, free, chosen, same⟩ | ⟨nobody, same⟩
  · rw [chosen] at choice
    rcases dispatch_cases s' policy with ⟨i', -, chosen', same'⟩ | ⟨nobody', -⟩
    · cases choice.symm.trans chosen'
      rw [same, same']
      refine ⟨step.now, ?_, rfl, step.nextBoost, fun j => ?_, fun j => ?_, step.trace⟩ <;> simp only
      · rw [step.ready, List.map_erase (Fin.castAdd_injective n k)]
      · rw [update_cast _ _ step.entries, step.entries, step.now]
      · rw [update_further, step.further]
    · rw [free] at current
      have member := choose_mem choice
      rw [nobody' current] at member
      cases member
  · rcases dispatch_cases s' policy with ⟨i', free', chosen', -⟩ | ⟨-, same'⟩
    · rw [free'] at current
      have member := choose_mem chosen'
      rw [step.ready, nobody (Option.map_eq_none_iff.mp current.symm)] at member
      cases member
    · rw [same, same']
      exact step

theorem InStep.giveUp (step : InStep v period s s') (i : Fin n) :
    InStep v period (s.giveUp i) (s'.giveUp (Fin.castAdd k i)) := by
  unfold State.giveUp
  rw [step.entries]
  split
  · refine ⟨step.now, ?_, rfl, step.nextBoost, fun j => ?_, fun j => ?_, step.trace⟩
    · simp only [step.ready, List.map_append, List.map_cons, List.map_nil]
    · simp only [State.setEntry]
      rw [update_cast _ _ step.entries, step.now]
    · simp only [State.setEntry]
      rw [update_further, step.further]
  · exact ⟨step.now, step.ready, rfl, step.nextBoost, step.entries, step.further, step.trace⟩

theorem InStep.preempts (step : InStep v period s s') (policy : Policy) (i : Fin n) :
    s'.Preempts policy (Fin.castAdd k i) ↔ s.Preempts policy i := by
  unfold State.Preempts
  rw [step.nextBoost, step.now, step.entries, step.ready]
  simp [step.entries]

theorem Extends.voluntary (more : Extends w v limit) (i : Fin n) (e : Entry) :
    v.Voluntary (Fin.castAdd k i) e ↔ w.Voluntary i e := by
  unfold Workload.Voluntary
  rw [more.burst]

theorem Extends.leave (more : Extends w v limit) (i : Fin n) (now : Nat) (e : Entry) :
    v.leave (Fin.castAdd k i) now e = w.leave i now e := by
  simp only [Workload.leave, more.voluntary, more.wait]

theorem InStep.charged (step : InStep v period s s') (more : Extends w v limit) (policy : Policy) (i : Fin n) :
    InStep v period (w.charged policy s i) (v.charged policy s' (Fin.castAdd k i)) := by
  refine ⟨congrArg (· + 1) step.now, step.ready, step.current, step.nextBoost, fun j => ?_, fun j => ?_, ?_⟩
  · simp only [Workload.charged]
    rw [update_cast _ _ step.entries, more.leave, step.now, step.entries]
  · simp only [Workload.charged]
    rw [update_further, step.further]
  · simp only [Workload.charged]
    rw [step.trace, step.now, step.entries, List.map_append]
    rfl

/-- A tick that ends before `limit`. -/
theorem InStep.tick (step : InStep v period s s') (more : Extends w v limit) (before : s.now + 1 < limit)
    (policy : Policy) (i : Fin n) :
    InStep v period (w.tick policy s i) (v.tick policy s' (Fin.castAdd k i)) := by
  have spent : InStep v period (w.spend policy s i) (v.spend policy s' (Fin.castAdd k i)) :=
    (step.charged more policy i).scan more before
  rw [tick_eq, tick_eq]
  simp only [step.entries, more.voluntary, spent.preempts]
  split
  · exact spent.giveUp i
  · exact spent

/-- Time moves to the same wake-up, unless that is `limit` or later. -/
theorem InStep.idle (step : InStep v period s s') (more : Extends w v limit) (near : ¬ Beyond limit s)
    (free : s.current = none) (nobody : s.ready = []) : InStep v period s.idle s'.idle := by
  have before : s.now < limit := not_le.mp fun later => near (.inl later)
  obtain ⟨i, sleeps, soon⟩ : ∃ i, (s.entries i).Sleeps ∧ (s.entries i).wake < limit := by
    by_contra none
    refine near (.inr ⟨free, nobody, fun i sleeps => ?_⟩)
    by_contra early
    exact none ⟨i, sleeps, not_le.mp early⟩
  have sleeps' : (s'.entries (Fin.castAdd k i)).Sleeps := by
    rw [step.entries]
    exact sleeps
  rcases idle_cases s with ⟨m, asleep, first, moved⟩ | ⟨none, -⟩
  · rcases idle_cases s' with ⟨m', asleep', first', moved'⟩ | ⟨none', -⟩
    · have same : (s'.entries m').wake = (s.entries m).wake := by
        induction m' using Fin.addCases with
        | left m' =>
          rw [step.entries] at asleep' ⊢
          have least := first' (Fin.castAdd k m)
          rw [step.entries, step.entries] at least
          exact le_antisymm (least asleep) (first m' asleep')
        | right j =>
          have least := first' (Fin.castAdd k i) sleeps'
          have late := more.late j
          rw [step.further, step.entries] at least
          exact absurd (late.trans least) (not_le.mpr soon)
      rw [moved, moved']
      exact ⟨same, step.ready, step.current, step.nextBoost, step.entries, step.further, step.trace⟩
    · exact absurd sleeps' (none' _)
  · exact absurd sleeps (none i)

theorem InStep.poised (step : InStep v period s s') (more : Extends w v limit) (before : s.now < limit)
    (policy : Policy) : InStep v period (s.poised policy period) (s'.poised policy period) :=
  ((step.scan more before).boost policy).dispatch policy

/-- Both heads of the loop until `limit` is reached. -/
def Together (w : Workload n) (v : Workload (n + k)) (period limit : Nat) (s : State n) (s' : State (n + k)) :
    Prop :=
  AtHead w s ∧ AtHead v s' ∧
    (InStep v period s s' ∨ Beyond limit s ∧ Beyond limit s' ∧ s'.trace = s.trace.map (Tick.cast k))

/-- From here on nothing runs before `limit`, and what has run is the same. -/
def Apart (w : Workload n) (v : Workload (n + k)) (limit : Nat) (s : State n) (s' : State (n + k)) : Prop :=
  AtHead w s ∧ AtHead v s' ∧ Beyond limit s ∧ Beyond limit s' ∧ s'.trace = s.trace.map (Tick.cast k)

theorem AtHead.going_near (head : AtHead w s) (near : ¬ Beyond limit s) : s.Going := by
  have undone (i : Fin n) (other : (s.entries i).phase ≠ .done) : s.Going :=
    ⟨i, (head.fits i).unended.mpr other⟩
  by_contra stopped
  refine near (.inr ⟨?_, ?_, fun i sleeps => ?_⟩)
  · by_contra some
    obtain ⟨i, current⟩ := Option.ne_none_iff_exists'.mp some
    exact stopped (undone i (by simp [head.steady i current]))
  · by_contra some
    obtain ⟨i, rest, ready⟩ := List.exists_cons_of_ne_nil some
    exact stopped (undone i (by simp [(head.ready i).mp (ready ▸ List.mem_cons_self)]))
  · refine absurd (undone i ?_) stopped
    rcases sleeps with new | blocked <;> simp [*]

theorem InStep.pass (step : InStep v period s s') (more : Extends w v limit) (head : AtHead w s)
    (head' : AtHead v s') (near : ¬ Beyond limit s) (next : w.pass policy period s = .ok t)
    (next' : v.pass policy period s' = .ok t') :
    InStep v period t t' ∨ Beyond limit t ∧ Beyond limit t' ∧ t'.trace = t.trace.map (Tick.cast k) := by
  have before : s.now < limit := not_le.mp fun later => near (.inl later)
  have poised := step.poised more before policy
  obtain ⟨a, rfl, -, settled, ⟨free, nobody, same⟩ | ⟨i, current, -, same⟩⟩ := head.cases policy period
  · cases same.symm.trans next
    obtain ⟨b, rfl, -, settled', ⟨-, -, same'⟩ | ⟨i', current', -, -⟩⟩ := head'.cases policy period
    · cases same'.symm.trans next'
      by_cases beyond : Beyond limit (s.poised policy period)
      · have trace (m : Nat) (x : State m) : x.idle.trace = x.trace := by
          rcases idle_cases x with ⟨_, -, -, moved⟩ | ⟨-, moved⟩ <;> rw [moved]
        refine .inr ⟨beyond.idle settled, (poised.beyond more beyond).idle settled', ?_⟩
        rw [trace, trace, poised.trace]
      · exact .inl (poised.idle more beyond free nobody)
    · rw [poised.current, free] at current'
      cases current'
  · cases same.symm.trans next
    have given := poised.current
    rw [current] at given
    obtain ⟨b, rfl, -, -, ⟨free', -, -⟩ | ⟨i', current', -, same'⟩⟩ := head'.cases policy period
    · cases given.symm.trans free'
    · cases given.symm.trans current'
      cases same'.symm.trans next'
      by_cases soon : (s.poised policy period).now + 1 < limit
      · exact .inl (poised.tick more soon policy i)
      · obtain ⟨trace, now⟩ := tick_trace w policy (s.poised policy period) i
        obtain ⟨trace', now'⟩ := tick_trace v policy (s'.poised policy period) (Fin.castAdd k i)
        have reached := not_lt.mp soon
        refine .inr ⟨.inl (now ▸ reached), .inl ?_, ?_⟩
        · rw [now', poised.now]
          exact reached
        · rw [trace, trace', poised.trace, poised.now, poised.entries, List.map_append]
          rfl

theorem together_step (more : Extends w v limit) (together : Together w v period limit s s') :
    Apart w v limit s s' ∨ s.Going ∧ s'.Going ∧ ∀ t t', w.pass policy period s = .ok t →
      v.pass policy period s' = .ok t' → Together w v period limit t t' := by
  obtain ⟨head, head', step | ⟨beyond, beyond', trace⟩⟩ := together
  · by_cases near : Beyond limit s
    · exact .inl ⟨head, head', near, step.beyond more near, step.trace⟩
    · have going := head.going_near near
      obtain ⟨i, undone⟩ := id going
      refine .inr ⟨going, ⟨Fin.castAdd k i, by rw [step.entries]; exact undone⟩, fun t t' next next' => ?_⟩
      exact ⟨head.next next, head'.next next', step.pass more head head' near next next'⟩
  · exact .inl ⟨head, head', beyond, beyond', trace⟩

/-- What runs before `limit` is the same in both runs. -/
theorem same_past (more : Extends w v limit) (leads : w.Leads policy period (w.start period) t)
    (leads' : v.Leads policy period (v.start period) t') :
    past limit t'.trace = (past limit t.trace).map (Tick.cast k) := by
  obtain ⟨m, m', ⟨head, head', beyond, beyond', trace⟩, rest, rest'⟩ :
      ∃ m m', Apart w v limit m m' ∧ w.Leads policy period m t ∧ v.Leads policy period m' t' := by
    have start : Together w v period limit (w.start period) (v.start period) :=
      ⟨start_head w period, start_head v period, .inl (start_inStep more period)⟩
    exact leads.partway leads' (fun m m' together => together_step more together) start
  rw [beyond.ends head rest, beyond'.ends head' rest', trace, past, past, List.filter_map]
  rfl

/-! ### Jobs that are complete by `limit` -/

theorem times_past (limit : Nat) (trace : List (Tick (Fin n))) (i : Fin n) :
    times (past limit trace) i = (times trace i).filter (· < limit) := by
  unfold times past
  rw [List.filter_map, List.filter_filter, List.filter_filter]
  congr 1
  apply List.filter_congr
  intro x _
  exact Bool.and_comm _ _

/-- A job that is complete by `limit` has the same ticks in both runs. -/
theorem times_same (ended : Ended w t) (ended' : Ended v t') (more : Extends w v limit)
    (past_same : past limit t'.trace = (past limit t.trace).map (Tick.cast k))
    (done : (t.entries i).done = some d) (early : d ≤ limit) :
    times t'.trace (Fin.castAdd k i) = times t.trace i := by
  have all : (times t.trace i).filter (· < limit) = times t.trace i := by
    rw [List.filter_eq_self]
    intro τ member
    obtain ⟨x, inside, rfl, rfl⟩ := mem_times.mp member
    obtain ⟨d', done', last⟩ := ended.done_last inside
    cases done.symm.trans done'
    exact decide_eq_true (last.trans_le early)
  have cast (trace : List (Tick (Fin n))) : times (trace.map (Tick.cast k)) (Fin.castAdd k i) = times trace i := by
    unfold times
    rw [List.filter_map, List.map_map]
    congr 1
    apply List.filter_congr
    intro x _
    simp [Tick.cast]
  have some : (times t'.trace (Fin.castAdd k i)).filter (· < limit) = times t.trace i := by
    rw [← times_past, past_same, cast, times_past, all]
  have whole : (times t.trace i).length = (times t'.trace (Fin.castAdd k i)).length := by
    rw [ended.whole, ended'.whole, more.service]
  rw [← some] at whole
  exact (List.filter_sublist.eq_of_length whole).symm.trans some

theorem metrics_same (ended : Ended w t) (ended' : Ended v t') (more : Extends w v limit)
    (past_same : past limit t'.trace = (past limit t.trace).map (Tick.cast k))
    (early : w.arrival i + (t.metrics w i).turnaround ≤ limit) :
    (t'.metrics v (Fin.castAdd k i)).response = (t.metrics w i).response ∧
      (t'.metrics v (Fin.castAdd k i)).turnaround = (t.metrics w i).turnaround := by
  have arrival := more.arrival i
  have service := more.service i
  rcases Nat.eq_zero_or_pos (w.service i) with zero | proper
  · obtain ⟨first, done⟩ := ended.empty zero
    obtain ⟨first', done'⟩ := ended'.empty (service.trans zero)
    simp [State.metrics, first, done, first', done']
  · obtain ⟨x, y, head, last, first, done⟩ := ended.endpoints proper
    obtain ⟨x', y', head', last', first', done'⟩ := ended'.endpoints (service ▸ proper)
    have soon : y + 1 ≤ limit := by
      simp only [State.metrics, done, Option.getD_some] at early
      omega
    have same := times_same ended ended' more past_same done soon
    rw [same, head] at head'
    rw [same, last] at last'
    cases head'
    cases last'
    simp only [State.metrics, first, done, first', done', arrival, and_self]

/-- The names of the jobs do not tell the runs apart. -/
theorem past_label (more : Extends w v limit)
    (past_same : past limit t'.trace = (past limit t.trace).map (Tick.cast k)) :
    past limit (t'.trace.map v.label) = past limit (t.trace.map w.label) := by
  have labels {m : Nat} (u : Workload m) (trace : List (Tick (Fin m))) :
      past limit (trace.map u.label) = (past limit trace).map u.label := by
    rw [past, List.filter_map]
    rfl
  rw [labels, labels, past_same, List.map_map]
  apply List.map_congr_left
  intro x _
  simp [Workload.label, Tick.cast, more.name]

/-- The workloads of a list of jobs and of one with further jobs at its end. -/
theorem validate_appended (jobs : Fin n → Job) (further : Fin k → Job) (limit : Int)
    (accepted : Accepted (Fin.append jobs further)) (late : ∀ j, limit ≤ (further j).arrival) :
    ∃ (w : Workload n) (v : Workload (n + k)), validate jobs = .ok w ∧
      validate (Fin.append jobs further) = .ok v ∧ Extends w v limit.toNat ∧
      ∀ i, (w.arrival i : Int) = (jobs i).arrival := by
  have accepted' : Accepted jobs := by
    refine ⟨fun i j same => Fin.castAdd_injective n k (accepted.named ?_), fun i => ?_⟩
    · simpa only [Fin.append_left] using same
    · have proper := accepted.proper (Fin.castAdd k i)
      rwa [Fin.append_left] at proper
  obtain ⟨w, valid, holds⟩ := validate_accepts accepted'
  obtain ⟨v, valid', holds'⟩ := validate_accepts accepted
  refine ⟨w, v, valid, valid', ⟨fun i => ?_, fun i => ?_, fun i => ?_, fun i => ?_, fun i => ?_, fun j => ?_⟩,
    holds.arrival⟩
  · rw [holds'.name, holds.name, Fin.append_left]
  · have there := holds'.arrival (Fin.castAdd k i)
    rw [Fin.append_left, ← holds.arrival] at there
    exact Int.ofNat_inj.mp there
  · have there := holds'.service (Fin.castAdd k i)
    rw [Fin.append_left, ← holds.service] at there
    exact Int.ofNat_inj.mp there
  · have there := holds'.burst (Fin.castAdd k i)
    rw [Fin.append_left, ← holds.burst] at there
    exact Int.ofNat_inj.mp there
  · have there := holds'.wait (Fin.castAdd k i)
    rw [Fin.append_left, ← holds.wait] at there
    exact Int.ofNat_inj.mp there
  · have there := holds'.arrival (Fin.natAdd n j)
    rw [Fin.append_right] at there
    have behind := late j
    omega

/-- Jobs that arrive at `limit` or later change no tick before, and no metrics
of a job that is complete by then. -/
theorem blind (jobs : Fin n → Job) (further : Fin k → Job) (limit : Int)
    (accepted : Accepted (Fin.append jobs further)) (late : ∀ j, limit ≤ (further j).arrival) (policy : Policy)
    (positive : 0 < period) :
    ∃ r r', Simulates jobs policy period r ∧ Simulates (Fin.append jobs further) policy period r' ∧
      (r'.trace.filter fun x => (x.time : Int) < limit) = (r.trace.filter fun x => (x.time : Int) < limit) ∧
      ∀ i, (jobs i).arrival + (r.jobs i).turnaround ≤ limit →
        (r'.jobs (Fin.castAdd k i)).response = (r.jobs i).response ∧
        (r'.jobs (Fin.castAdd k i)).turnaround = (r.jobs i).turnaround := by
  obtain ⟨w, v, valid, valid', more, arrival⟩ := validate_appended jobs further limit accepted late
  obtain ⟨t, leads, -⟩ := schedule_ends w policy period
  obtain ⟨t', leads', -⟩ := schedule_ends v policy period
  obtain ⟨ended, returns⟩ := leads_returns leads
  obtain ⟨ended', returns'⟩ := leads_returns leads'
  have past_same := same_past more leads leads'
  refine ⟨_, _, Returns.simulate valid positive returns, Returns.simulate valid' positive returns', ?_,
    fun i early => metrics_same ended ended' more past_same ?_⟩
  · have bound (x : Tick String) : decide ((x.time : Int) < limit) = decide (x.time < limit.toNat) := by
      rw [decide_eq_decide]
      omega
    simp only [bound]
    exact past_label more past_same
  · rw [← arrival] at early
    obtain ⟨d, done⟩ : ∃ d, (t.entries i).done = some d := by
      apply Option.ne_none_iff_exists'.mp
      exact fun none => (ended.fits i).unended.mp none (ended.finished i)
    simp only [State.outcome, State.metrics, done, Option.getD_some] at early ⊢
    omega

end Neonos.Mlfq

namespace Neonos

/-- Neither simulator sees the future: further jobs at the end of the list that
arrive at `limit` or later leave everything that starts before `limit` as it
is, under every policy, and the metrics of every job that is complete by then. -/
theorem no_foresight :
    (∀ n k (jobs : Fin n → Scheduling.Job) (further : Fin k → Scheduling.Job) (limit : Int),
      (Function.Injective fun i => (Fin.append jobs further i).name) →
      (∀ i, 0 ≤ (Fin.append jobs further i).arrival ∧ 0 ≤ (Fin.append jobs further i).service) →
      (∀ j, limit ≤ (further j).arrival) → ∀ policy quantum, 0 < quantum →
      ∃ r r', Scheduling.Simulates jobs policy quantum r ∧
        Scheduling.Simulates (Fin.append jobs further) policy quantum r' ∧
        (r'.trace.filter fun x => (x.start : Int) < limit) = (r.trace.filter fun x => (x.start : Int) < limit) ∧
        ∀ i, (jobs i).arrival + (r.result i).turnaround ≤ limit →
          r'.result (Fin.castAdd k i) = r.result i) ∧
    ∀ n k (jobs : Fin n → Mlfq.Job) (further : Fin k → Mlfq.Job) (limit : Int),
      Mlfq.Accepted (Fin.append jobs further) → (∀ j, limit ≤ (further j).arrival) →
      ∀ policy period, 0 < period →
      ∃ r r', Mlfq.Simulates jobs policy period r ∧ Mlfq.Simulates (Fin.append jobs further) policy period r' ∧
        (r'.trace.filter fun x => (x.time : Int) < limit) = (r.trace.filter fun x => (x.time : Int) < limit) ∧
        ∀ i, (jobs i).arrival + (r.jobs i).turnaround ≤ limit →
          (r'.jobs (Fin.castAdd k i)).response = (r.jobs i).response ∧
          (r'.jobs (Fin.castAdd k i)).turnaround = (r.jobs i).turnaround := by
  constructor
  · intro n k jobs further limit named proper late policy quantum positive
    exact Scheduling.blind jobs further limit named proper late policy positive
  · intro n k jobs further limit accepted late policy period positive
    exact Mlfq.blind jobs further limit accepted late policy positive

theorem no_foresight_course :
    (∃ r r', Scheduling.Simulates Scheduling.course .sjf 2 r ∧
      Scheduling.Simulates (Fin.append Scheduling.course ![⟨"D", 2, 1⟩]) .sjf 2 r' ∧
      (r'.trace.filter fun x => (x.start : Int) < 2) = (r.trace.filter fun x => (x.start : Int) < 2) ∧
      ∀ i, (Scheduling.course i).arrival + (r.result i).turnaround ≤ 2 →
        r'.result (Fin.castAdd 1 i) = r.result i) ∧
    ∃ r r', Mlfq.Simulates Mlfq.course .mlfq 40 r ∧
      Mlfq.Simulates (Fin.append Mlfq.course ![⟨"E", 20, 1, 0, 0⟩]) .mlfq 40 r' ∧
      (r'.trace.filter fun x => (x.time : Int) < 20) = (r.trace.filter fun x => (x.time : Int) < 20) ∧
      ∀ i, (Mlfq.course i).arrival + (r.jobs i).turnaround ≤ 20 →
        (r'.jobs (Fin.castAdd 1 i)).response = (r.jobs i).response ∧
        (r'.jobs (Fin.castAdd 1 i)).turnaround = (r.jobs i).turnaround := by
  constructor
  · exact no_foresight.1 3 1 Scheduling.course ![⟨"D", 2, 1⟩] 2 (by decide) (by decide) (by decide) .sjf 2 (by decide)
  · exact no_foresight.2 4 1 Mlfq.course ![⟨"E", 20, 1, 0, 0⟩] 20 ⟨by decide, by decide⟩ (by decide) .mlfq 40 (by decide)

end Neonos
