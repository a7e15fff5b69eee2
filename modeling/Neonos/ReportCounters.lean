import Neonos.TimeArithmetic
import Neonos.TrapAccounts

/-! The numbers `batch` prints in the end. Every switch is paid for by a queue
entry, every queue entry by a spec, a yield or a preemption, and the event
record holds the first 64 of the traps that count. The counters are of 32 bits:
they are exact in a build that checks, and wrap in one that does not. -/
namespace Neonos.Scheduler
open StableChoice Runs

/-- What a pass adds to the event record: every trap but a syscall that
returns to its task. -/
def Pass.recorded (p : Pass) : Option (TaskId × Reason) :=
  if p.event.reason ≠ .syscall ∨ p.requeued.isSome then some (p.task, p.event.reason) else none

/-- All recorded traps of a history, in order. -/
def recorded (passes : List Pass) : List (TaskId × Reason) := passes.filterMap Pass.recorded

/-- A sum over the tasks of the batch. -/
def Batch.total (b : Batch) (count : Task → Nat) (s : Loop) : Nat :=
  ∑ i : Fin b.specs.length, count (s.tasks (b.task i))

/-- The record of a list of events, one event longer. -/
theorem recordedIn_take {profile : Profile} {dropped : Int32} (events : List (TaskId × Reason))
    (event : TaskId × Reason) (counts : profile.Counts dropped (events.length - 64))
    (fits : ¬ (events.take 64).length < 64 → profile.Fits dropped) :
    (Loop.recordedIn (events.take 64) dropped event).1 = (events ++ [event]).take 64 ∧
      profile.Counts (Loop.recordedIn (events.take 64) dropped event).2 ((events ++ [event]).length - 64) := by
  unfold Loop.recordedIn
  by_cases room : events.length < 64
  · have whole : events.take 64 = events := List.take_of_length_le (by omega)
    have longer : (events ++ [event]).take 64 = events ++ [event] :=
      List.take_of_length_le (by simpa using room)
    have none_ : (events ++ [event]).length - 64 = events.length - 64 := by
      rw [List.length_append, List.length_singleton]
      omega
    rw [whole, longer, if_pos room, none_]
    exact ⟨rfl, counts⟩
  · have full : ¬ (events.take 64).length < 64 := by
      rw [List.length_take]
      omega
    have more : (events ++ [event]).length - 64 = events.length - 64 + 1 := by
      rw [List.length_append, List.length_singleton]
      omega
    rw [if_neg full, List.take_append_of_le_length (by omega), more]
    exact ⟨rfl, counts.next (fits full)⟩

namespace Batch
variable {b : Batch} {h h' : Head} {p : Pass} {passes : List Pass} {back : Bool}

/-- A pass moves a sum over the tasks by what its own task gains. -/
theorem total_moves (count : Task → Nat) (coherent : Coherent b h.loop) (passed : b.Passed h p h')
    (others : ∀ j, j ≠ p.task → count (p.after.tasks j) = count (h.loop.tasks j)) :
    b.total count p.after + count (h.loop.tasks p.task) =
      b.total count h.loop + count (p.after.tasks p.task) := by
  have live := passed.live coherent
  rcases b.task_or_spare p.task with ⟨n, own⟩ | spare
  · unfold total
    rw [← Finset.add_sum_erase _ _ (Finset.mem_univ n),
      ← Finset.add_sum_erase _ (fun i => count (h.loop.tasks (b.task i))) (Finset.mem_univ n)]
    have rest : ∑ i ∈ Finset.univ.erase n, count (p.after.tasks (b.task i)) =
        ∑ i ∈ Finset.univ.erase n, count (h.loop.tasks (b.task i)) := by
      apply Finset.sum_congr rfl
      intro i member
      apply others
      rw [← own]
      exact fun same => Finset.ne_of_mem_erase member (b.task_injective same)
    rw [rest, own]
    omega
  · exact absurd (coherent.spare p.task spare) live

/-- The two halves of a pass together, as the counters see them. -/
structure Gained (b : Batch) (h : Head) (p : Pass) (back : Bool) : Prop where
  timers : (p.after.tasks p.task).timers =
    (h.loop.tasks p.task).timers + if p.event.reason = .timer then 1 else 0
  yields : (p.after.tasks p.task).yields =
    (h.loop.tasks p.task).yields + if p.event.reason = .yield then 1 else 0
  preemptions : (p.after.tasks p.task).preemptions = (h.loop.tasks p.task).preemptions +
    if back = true ∧ (p.event.reason = .timer ∨ p.event.reason = .syscall) then 1 else 0
  others : ∀ j, j ≠ p.task → SameCounts (h.loop.tasks j) (p.after.tasks j) ∧
    (p.after.tasks j).state = (h.loop.tasks j).state
  requeued : p.requeued = if back = true then some p.task else none
  recorded : p.recorded =
    if p.event.reason ≠ .syscall ∨ back = true then some (p.task, p.event.reason) else none
  trace : (p.after.trace, p.after.dropped) =
    p.recorded.elim (h.loop.trace, h.loop.dropped) (Loop.recordedIn h.loop.trace h.loop.dropped)
  fits : p.recorded ≠ none → ¬ h.loop.trace.length < 64 → b.profile.Fits h.loop.dropped

theorem gained (passed : b.Passed h p h') (programmed : b.Programmed p.readings h.loop p.task p.entry)
    (counted : b.Counted p.readings p.task (p.entry.trapped p.task p.event) p.after back) :
    b.Gained h p back := by
  have own := programmed.counts p.task
  have held : (p.entry.trapped p.task p.event).current = some p.task := passed.entered.current
  have requeued : p.requeued = if back = true then some p.task else none := by
    cases back with
    | true =>
      obtain ⟨current, state, -⟩ := counted.goes rfl
      simp [Pass.requeued, current, state]
    | false =>
      rcases (counted.stays rfl).2 with ⟨-, -, state⟩ | ⟨-, current, -⟩
      · simp [Pass.requeued, state]
      · simp [Pass.requeued, current, held]
  have recorded : p.recorded = if p.event.reason ≠ .syscall ∨ back = true
      then some (p.task, p.event.reason) else none := by
    unfold Pass.recorded
    rw [requeued]
    cases back <;> simp
  refine ⟨?_, ?_, ?_, fun j different => ⟨?_, ?_⟩, requeued, recorded, ?_, fun some_ full => ?_⟩
  · rw [counted.timers, ← own.timers]
    rfl
  · rw [counted.yields, ← own.yields]
    rfl
  · rw [counted.preemptions, ← own.preemptions]
    rfl
  · rw [counted.others j different]
    exact programmed.counts j
  · rw [(passed.other different).1, (b.risen_state p.readings h.loop j).1]
  · rw [counted.record, recorded, ← passed.entered.trace, ← passed.entered.dropped]
    change (if p.event.reason ≠ .syscall ∨ back = true
      then Loop.recordedIn p.entry.trace p.entry.dropped (p.task, p.event.reason)
      else (p.entry.trace, p.entry.dropped)) = _
    split <;> rfl
  · rw [recorded] at some_
    rw [← passed.entered.trace] at full
    rw [← passed.entered.dropped]
    refine counted.fits ⟨?_, full⟩
    by_contra silent
    exact some_ (if_neg silent)

/-- Every requeue is counted once, as a yield or as a preemption. -/
theorem gained_queued
    (counted : b.Counted p.readings p.task (p.entry.trapped p.task p.event) p.after back)
    (gains : b.Gained h p back) :
    (p.after.tasks p.task).yields + (p.after.tasks p.task).preemptions =
      (h.loop.tasks p.task).yields + (h.loop.tasks p.task).preemptions + p.requeued.toList.length := by
  have reason : b.Ends p.task p.event.reason ∨ p.event.reason = .yield ∨ p.event.reason = .timer ∨
      p.event.reason = .syscall := counted.reason
  rw [gains.yields, gains.preemptions, gains.requeued]
  rcases reason with ends | yields | ticks | calls
  · have stays : back = false := counted.ended ends
    simp [stays, ends.neither]
  · simp [counted.yielding yields, yields]
    omega
  · cases back <;> simp [ticks]
    omega
  · cases back <;> simp [calls]
    omega

/-- Without a one-shot count a trap is recorded exactly when it frees the CPU. -/
theorem gained_leaves (held : p.entry.current = some p.task) (free : ∀ limit, b.policy ≠ .timer limit)
    (counted : b.Counted p.readings p.task (p.entry.trapped p.task p.event) p.after back)
    (gains : b.Gained h p back) : p.after.current = if p.recorded = none then some p.task else none := by
  have reason : b.Ends p.task p.event.reason ∨ p.event.reason = .yield ∨ p.event.reason = .timer ∨
      p.event.reason = .syscall := counted.reason
  rw [gains.recorded]
  cases back with
  | true => simp [(counted.goes rfl).1]
  | false =>
    rcases (counted.stays rfl).2 with ⟨ends, current, -⟩ | ⟨goes, current, -⟩
    · have ends' : b.Ends p.task p.event.reason := ends
      simp [current, ends'.neither]
    · rcases reason with ends | yields | ticks | calls
      · exact absurd ends goes
      · exact absurd (counted.yielding yields) (by simp)
      · exact absurd ((counted.ticking ticks).mpr free) (by simp)
      · simp [calls]
        exact current.trans held

/-- Under a one-shot count a trap is recorded exactly when it ends its task or
is counted as a yield or a timer. -/
theorem gained_ticks (policy : b.policy = .timer limit) (live : (h.loop.tasks p.task).state ≠ .done)
    (counted : b.Counted p.readings p.task (p.entry.trapped p.task p.event) p.after back)
    (gains : b.Gained h p back) :
    (if (p.after.tasks p.task).state = .done then 1 else 0) +
        ((p.after.tasks p.task).yields + (p.after.tasks p.task).timers) =
      (if (h.loop.tasks p.task).state = .done then 1 else 0) +
        ((h.loop.tasks p.task).yields + (h.loop.tasks p.task).timers) +
        p.recorded.toList.length := by
  have reason : b.Ends p.task p.event.reason ∨ p.event.reason = .yield ∨ p.event.reason = .timer ∨
      p.event.reason = .syscall := counted.reason
  have off : b.mlfq = false := by simp [mlfq, policy]
  rw [gains.yields, gains.timers, gains.recorded]
  rcases reason with ends | yields | ticks | calls
  · obtain rfl : back = false := counted.ended ends
    rcases (counted.stays rfl).2 with ⟨-, -, state⟩ | ⟨goes, -⟩
    · simp [ends.neither, state, live]
      omega
    · exact absurd ends goes
  · obtain rfl : back = true := counted.yielding yields
    simp [yields, (counted.goes rfl).2.1, live]
    omega
  · have stays : back = false := by
      by_contra up
      exact (counted.ticking ticks).mp (by simpa using up) limit policy
    subst stays
    rcases (counted.stays rfl).2 with ⟨ends, -⟩ | ⟨-, -, state⟩
    · exact absurd ticks ends.neither.2.1
    · simp [ticks, state, live]
      omega
  · obtain rfl : back = false := counted.calling calls off (by simp [policy])
    rcases (counted.stays rfl).2 with ⟨ends, -⟩ | ⟨-, -, state⟩
    · exact absurd calls ends.neither.2.2
    · simp [calls, state, live]

/-- Recorded events so far, as the counters of a Timer batch add them up. -/
def counts (t : Task) : Nat := (if t.state = .done then 1 else 0) + (t.yields + t.timers)

/-- The counters at a loop head against the history. -/
structure Tallied (b : Batch) (passes : List Pass) (h : Head) : Prop where
  switches : b.profile.Counts h.loop.switches (dispatches passes).length
  boosts : b.profile.Counts h.loop.boosts (passes.countP b.Boosts)
  dropped : b.profile.Counts h.loop.dropped ((recorded passes).length - 64)
  trace : h.loop.trace = (recorded passes).take 64
  queue : (dispatches passes).length + h.loop.ready.contents.length =
    b.specs.length + b.total (fun t => t.yields + t.preemptions) h.loop
  switched : (∀ limit, b.policy ≠ .timer limit) →
    (recorded passes).length + h.loop.current.toList.length = (dispatches passes).length
  ticked : ∀ limit, b.policy = .timer limit → (recorded passes).length = b.total counts h.loop

theorem start_tallied (started : b.start = .ok s) : b.Tallied [] ⟨s, b.base⟩ := by
  obtain ⟨s', ran, line, made, -, idle, -, switches, trace, dropped, boosts, -⟩ :=
    start_spec (start_bounded started)
  rw [started] at ran
  cases ran
  refine ⟨?_, ?_, ?_, ?_, ?_, fun _ => ?_, fun _ _ => ?_⟩
  · rw [switches]
    exact .zero
  · rw [boosts]
    exact .zero
  · rw [dropped]
    exact .zero
  · simp [trace, recorded]
  · simp [dispatches, line, total, made, created, blankTask]
  · simp [dispatches, recorded, idle]
  · simp [recorded, total, counts, made, created, blankTask]

/-- What a pass does to the three counters of the report. -/
theorem step_counters (coherent : Coherent b h.loop) (tallied : b.Tallied passes h) (step : b.Step h p h') :
    b.profile.Counts h'.loop.switches (dispatches (passes ++ [p])).length ∧
      b.profile.Counts h'.loop.boosts ((passes ++ [p]).countP b.Boosts) ∧
      h'.loop.trace = (recorded (passes ++ [p])).take 64 ∧
      b.profile.Counts h'.loop.dropped ((recorded (passes ++ [p])).length - 64) := by
  obtain ⟨programmed, back, counted⟩ := step_counted coherent step
  have passed := step_view coherent step
  have gains := gained passed programmed counted
  obtain ⟨t, settled⟩ := passed.settled
  have events : recorded (passes ++ [p]) = recorded passes ++ p.recorded.toList := by
    cases new : p.recorded <;> simp [recorded, new]
  have due : b.Boosts p ↔ b.BoostDue p.readings h.loop := by rw [Boosts, passed.before]
  rw [passed.after, settled.switches, settled.boosts, dispatches_append, dispatches_single, List.length_append,
    List.countP_append]
  refine ⟨?_, ?_, ?_⟩
  · change b.profile.Counts p.entry.switches _
    rcases passed.entered.choice with ⟨held, -, -, kept⟩ | ⟨idle, -, -, next⟩
    · simpa [Pass.dispatched, passed.before, held, kept] using tallied.switches
    · simpa [Pass.dispatched, passed.before, idle, next] using tallied.switches.next (passed.entered.taking idle)
  · change b.profile.Counts p.entry.boosts _
    rw [passed.entered.boosts]
    by_cases raises : b.BoostDue p.readings h.loop
    · simpa [due, raises] using tallied.boosts.next (passed.entered.raising raises)
    · simpa [due, raises] using tallied.boosts
  · have trace := tallied.trace
    have record := gains.trace
    rw [events]
    cases new : p.recorded with
    | none =>
      rw [new] at record
      obtain ⟨kept, left⟩ := Prod.mk.inj record
      rw [kept, left]
      simpa using And.intro trace tallied.dropped
    | some event =>
      have fits := gains.fits (by simp [new])
      rw [new, trace] at record
      rw [trace] at fits
      obtain ⟨kept, left⟩ := Prod.mk.inj record
      rw [kept, left]
      exact recordedIn_take _ event tallied.dropped fits

theorem step_tallied (coherent : Coherent b h.loop) (tallied : b.Tallied passes h)
    (step : b.Step h p h') : b.Tallied (passes ++ [p]) h' := by
  obtain ⟨switches, boosts, trace, dropped⟩ := step_counters coherent tallied step
  obtain ⟨programmed, back, counted⟩ := step_counted coherent step
  have passed := step_view coherent step
  have gains := gained passed programmed counted
  have move := moved passed
  have chosen : h.loop.ready.contents.length = p.entry.ready.contents.length + p.dispatched.toList.length ∧
      p.dispatched.toList.length + h.loop.current.toList.length = 1 := by
    rcases move.chosen with ⟨none_, current, same⟩ | ⟨some_, idle, taken⟩
    · simp [none_, current, same]
    · simp [some_, idle, taken.length]
  obtain ⟨line, one⟩ := chosen
  have events : recorded (passes ++ [p]) = recorded passes ++ p.recorded.toList := by
    cases new : p.recorded <;> simp [recorded, new]
  have more : (dispatches (passes ++ [p])).length = (dispatches passes).length + p.dispatched.toList.length := by
    rw [dispatches_append, dispatches_single, List.length_append]
  refine ⟨switches, boosts, dropped, trace, ?_, fun free => ?_, fun limit policy => ?_⟩
  · have sum := total_moves (fun t => t.yields + t.preemptions) coherent passed (fun j different => by
      rw [(gains.others j different).1.yields, (gains.others j different).1.preemptions])
    have gain := gained_queued counted gains
    have before := tallied.queue
    rw [move.joined, List.length_append, passed.after, more]
    omega
  · have before := tallied.switched free
    rw [passed.after, gained_leaves passed.entered.current free counted gains, more, events,
      List.length_append]
    cases p.recorded with
    | none => simp at one before ⊢; omega
    | some event => simp at one before ⊢; omega
  · have sum := total_moves counts coherent passed (fun j different => by
      have same := gains.others j different
      simp [counts, same.1.yields, same.1.timers, same.2])
    have gain := gained_ticks policy (passed.live coherent) counted gains
    have before := tallied.ticked limit policy
    rw [passed.after, events, List.length_append]
    unfold counts at sum ⊢ before
    omega

theorem reaches_tallied (reached : b.Reaches passes h) : b.Tallied passes h := by
  obtain ⟨s, started, run⟩ := reached
  have coherent := start_coherent started
  induction run with
  | nil => exact start_tallied started
  | snoc earlier last ih => exact step_tallied (run_coherent coherent earlier) ih last

/-- The counters that a pass bumps before its task are at their end only in a
build that checks, and not before pass `2 ^ 31`. -/
theorem Tallied.overflows (tallied : b.Tallied passes h) (full : b.Overflows r h.loop) :
    b.profile = .dev ∧ 2 ^ 31 ≤ passes.length + 1 := by
  rcases full with ⟨-, full⟩ | ⟨-, -, full⟩
  · obtain ⟨checks, many⟩ := tallied.boosts.full full
    have within := List.countP_le_length (p := fun p => decide (b.Boosts p)) (l := passes)
    exact ⟨checks, by omega⟩
  · obtain ⟨checks, many⟩ := tallied.switches.full full
    have within : (dispatches passes).length ≤ passes.length := List.length_filterMap_le _ _
    exact ⟨checks, by omega⟩

/-- Nor is the counter of the dropped events before that. -/
theorem Tallied.drops (tallied : b.Tallied passes h) (full : ¬ b.profile.Fits h.loop.dropped) :
    b.profile = .dev ∧ 2 ^ 31 ≤ passes.length + 1 := by
  obtain ⟨checks, many⟩ := tallied.dropped.full full
  have within : (recorded passes).length ≤ passes.length := List.length_filterMap_le _ _
  exact ⟨checks, by omega⟩

/-! ### The equations of the report -/

/-- The switches balance the queue exactly while there are fewer than `2 ^ 31` of them. -/
theorem Tallied.balance (tallied : b.Tallied passes h) :
    h.loop.switches.toInt + h.loop.ready.contents.length =
        b.specs.length + b.total (fun t => t.yields + t.preemptions) h.loop ↔
      (dispatches passes).length < 2 ^ 31 := by
  rw [← tallied.switches.exact_iff]
  have queue := tallied.queue
  omega

theorem Tallied.length (tallied : b.Tallied passes h) : h.loop.trace.length = min 64 (recorded passes).length := by
  rw [tallied.trace, List.length_take]

/-- Record and dropped events add up to the recorded traps exactly while there
are fewer than `2 ^ 31` events to drop. -/
theorem Tallied.events (tallied : b.Tallied passes h) :
    h.loop.trace.length + h.loop.dropped.toInt = (recorded passes).length ↔
      (recorded passes).length - 64 < 2 ^ 31 := by
  rw [← tallied.dropped.exact_iff, tallied.length]
  omega

end Batch

namespace Batch
variable {b : Batch} {h : Head}

/-- Without overflow checks a task under `Policy::Yield` can always yield once more. -/
theorem yields_on (release : b.profile = .release) (policy : b.policy = .yield) (reached : b.Reaches passes h)
    (room : h.clock ≤ usizeMax - 20 * T) (idle : h.loop.current = none) (some_ : h.loop.ready.contents ≠ []) :
    ∃ p h', b.Step h p h' ∧ p.dispatched = some p.task ∧ h'.clock = h.clock ∧ h'.loop.current = none ∧
      h'.loop.ready.contents ≠ [] := by
  have small : 20 * T ≤ usizeMax := by decide
  have quantum : T ≤ 20 * T := by decide
  have off : b.mlfq = false := by simp [mlfq, policy]
  have coherent := reaches_coherent reached
  have start := (reaches_timed reached).base
  have fits (counter : Int32) : b.profile.Fits counter := fun checks => by simp [release] at checks
  let r := Readings.instant h.clock h.clock
  have calm : ¬ b.Overflows r h.loop := by
    rintro (⟨-, full⟩ | ⟨-, -, full⟩)
    · exact full (fits _)
    · exact full (fits _)
  obtain ⟨pick, ran⟩ := enter_runs (r := r) coherent (by simp [off]) start
    (show h.clock + 20 * T ≤ usizeMax by omega) (show h.clock + 20 * T ≤ usizeMax by omega)
    (show h.clock + 20 * T ≤ usizeMax by omega) calm
  cases pick with
  | none => exact absurd (break_view ran).2 some_
  | some pick =>
    obtain ⟨i, e⟩ := pick
    let event : Exchange := ⟨e.exchange.expected, (e.tasks i).frame, .yield, h.clock⟩
    have view := enter_view ran
    have entry := trapped_coherent (i := i) (entered_coherent coherent view) event
    cases after : b.settle r i (e.trapped i event) with
    | error cause =>
      rcases settle_fails entry view.current (by simp [off]) (Nat.le_refl h.clock)
        (show h.clock + T ≤ usizeMax by omega) after with ⟨-, failing⟩ | ⟨-, full⟩
      · rcases failing with ⟨code, -, other⟩ | ⟨cause, other⟩ <;> cases other
      · exact absurd (fits _) full
    | ok s' =>
      have clock : r.Nondecreasing h.clock h.clock := by simp [r, Readings.Nondecreasing, Readings.instant]
      have step : b.Step h ⟨h.loop, r, i, e, event, s'⟩ ⟨s', r.requeued⟩ := ⟨rfl, clock, ran, after, rfl⟩
      obtain ⟨-, back, counted⟩ := step_counted coherent step
      obtain ⟨current, -, line⟩ := counted.goes (counted.yielding rfl)
      refine ⟨_, _, step, ?_, rfl, current, ?_⟩
      · simp [Pass.dispatched, idle]
      · rw [line]
        simp

/-- So there are runs with any number of dispatches. -/
theorem yields_forever (release : b.profile = .release) (policy : b.policy = .yield)
    (room : b.base ≤ usizeMax - 20 * T) (n : Nat) :
    ∃ passes h, b.Reaches passes h ∧ (dispatches passes).length = n := by
  suffices more : ∃ passes h, b.Reaches passes h ∧ (dispatches passes).length = n ∧ h.clock = b.base ∧
      h.loop.current = none ∧ h.loop.ready.contents ≠ [] by
    obtain ⟨passes, h, reached, length, -⟩ := more
    exact ⟨passes, h, reached, length⟩
  induction n with
  | zero =>
    have small : 20 * T ≤ usizeMax := by decide
    obtain ⟨s, started, line, -, -, idle, -⟩ := start_spec (b := b) (by omega)
    refine ⟨[], ⟨s, b.base⟩, ⟨s, started, .nil⟩, rfl, rfl, idle, ?_⟩
    intro empty
    rw [line] at empty
    simpa [b.nonempty] using congrArg List.length empty
  | succ n ih =>
    obtain ⟨passes, h, reached, length, clock, idle, some_⟩ := ih
    obtain ⟨p, h', step, dispatched, same, idle', some'⟩ :=
      yields_on release policy reached (clock ▸ room) idle some_
    obtain ⟨s, started, run⟩ := reached
    refine ⟨passes ++ [p], h', ⟨s, started, run.snoc step⟩, ?_, same.trans clock, idle', some'⟩
    rw [dispatches_append, dispatches_single, dispatched, List.length_append, length]
    rfl

end Batch

/-- One task that yields more often than an `i32` counts, in a release build. -/
def tireless : Batch :=
  { rehearsal .yield with
    profile := .release, specs := [Spec.new 2 3000000000], nonempty := by simp, fits := by decide }

end Neonos.Scheduler
