import Neonos.TrapAccounts
import Neonos.TimeArithmetic

/-! The one-shot count of `Policy::Timer`. A task that has used up its count no
longer arms the timer, but entering it does not turn off a timer that another
task has armed. -/
namespace Neonos.Scheduler
open StableChoice Runs

/-- The timer interrupt reaches user mode only while it is enabled and the last
deadline given to `set_timer` has passed. -/
def Pass.Delivered (p : Pass) : Prop :=
  p.event.reason = .timer → p.entry.stie = true ∧ p.entry.timecmp ≤ p.event.time

instance : DecidablePred Pass.Delivered := fun _ => inferInstanceAs (Decidable (_ → _))

/-- The task the next pass enters: the current one, else the head of the queue. -/
def Loop.upcoming (s : Loop) : Option TaskId := s.current.or s.ready.contents.head?

/-- No task that has used up its count is next while the timer is on. -/
def Loop.Disarmed (limit : Nat) (s : Loop) : Prop :=
  ∀ i, s.upcoming = some i → limit ≤ (s.tasks i).timers → s.stie = false

namespace Batch
variable {b : Batch} {h h' : Head} {p : Pass} {passes : List Pass} {limit : Nat}

/-- Without levels the next task is known at the loop head. -/
theorem entered_upcoming (fifo : b.mlfq = false) (entered : b.Entered r s i e) :
    s.upcoming = some i := by
  unfold Loop.upcoming
  rcases entered.choice with ⟨held, -⟩ | ⟨idle, taken, -⟩
  · simp [held]
  · rw [idle, taken.head (by simp [priority, fifo])]
    rfl

/-- The timer of a task that has used up its count is as its predecessor left it. -/
theorem spent_timer (policy : b.policy = .timer limit)
    (programmed : b.Programmed p.readings h.loop p.task p.entry)
    (spent : limit ≤ (h.loop.tasks p.task).timers) :
    p.entry.stie = h.loop.stie ∧ p.entry.timecmp = h.loop.timecmp := by
  have same := (programmed.counts p.task).timers
  have off : ¬ b.Arms (p.entry.tasks p.task) := by
    simp only [Arms, policy]
    omega
  rw [programmed.stie, programmed.timecmp, if_neg off, if_neg off]
  exact ⟨rfl, rfl⟩

/-- One pass keeps the count of every task, provided it does not enter a task
without count under a live timer. -/
theorem step_limit (policy : b.policy = .timer limit) (coherent : Coherent b h.loop)
    (within : ∀ j, (h.loop.tasks j).timers ≤ limit) (step : b.Step h p h')
    (delivered : p.Delivered) (disarmed : h.loop.Disarmed limit) :
    (∀ j, (h'.loop.tasks j).timers ≤ limit) ∧
      (limit ≤ (h.loop.tasks p.task).timers → p.event.reason ≠ .timer) := by
  have off : b.mlfq = false := by simp [mlfq, policy]
  have passed := step_view coherent step
  obtain ⟨programmed, back, counted⟩ := step_counted coherent step
  have quiet : limit ≤ (h.loop.tasks p.task).timers → p.event.reason ≠ .timer := by
    intro spent ticks
    have live := (delivered ticks).1
    rw [(spent_timer policy programmed spent).1,
      disarmed p.task (entered_upcoming off passed.entered) spent] at live
    cases live
  refine ⟨fun j => ?_, quiet⟩
  rw [passed.after]
  by_cases own : j = p.task
  · subst own
    have timers := counted.timers
    change _ = (p.entry.tasks p.task).timers + if p.event.reason = .timer then 1 else 0 at timers
    rw [(programmed.counts p.task).timers] at timers
    have before := within p.task
    split at timers
    · rename_i ticks
      have more : ¬ limit ≤ (h.loop.tasks p.task).timers := fun spent => quiet spent ticks
      omega
    · omega
  · rw [counted.others j own]
    change (p.entry.tasks j).timers ≤ limit
    rw [(programmed.counts j).timers]
    exact within j

/-! ### A live timer is due within a quantum -/

/-- The deadline at hand, and the programmed one while the timer is on, lie at
most one quantum ahead of the clock. -/
structure Near (h : Head) : Prop where
  deadline : h.loop.deadline ≤ h.clock + T
  timecmp : h.loop.stie = true → h.loop.timecmp ≤ h.clock + T

theorem step_near (off : b.mlfq = false) (coherent : Coherent b h.loop) (near : Near h)
    (step : b.Step h p h') : Near h' := by
  obtain ⟨programmed, back, counted⟩ := step_counted coherent step
  obtain ⟨-, clock, -, -, rfl⟩ := step
  unfold Readings.Nondecreasing at clock
  obtain ⟨deadline, timecmp⟩ := near
  have entry : p.entry.deadline ≤ p.readings.requeued + T := by
    rw [programmed.deadline off]
    split <;> omega
  have armed : p.entry.stie = true → p.entry.timecmp ≤ p.readings.requeued + T := by
    rw [programmed.stie, programmed.timecmp]
    split
    · exact fun _ => entry
    · intro on
      have before := timecmp on
      omega
  constructor
  · dsimp only
    rcases counted.deadline with same | ⟨_, -, -, fresh⟩
    · rw [same]
      exact entry
    · rw [fresh]
      omega
  · dsimp only
    intro on
    rcases counted.timer with ⟨stie, timecmp⟩ | ⟨-, -, stopped⟩
    · rw [timecmp]
      exact armed (stie ▸ on)
    · rw [stopped] at on
      cases on

theorem reaches_near (off : b.mlfq = false) (reached : b.Reaches passes h) : Near h := by
  obtain ⟨s, started, run⟩ := reached
  have coherent := start_coherent started
  induction run with
  | nil =>
    obtain ⟨s', ran, -, -, -, -, -, -, -, -, -, -, deadline, stie⟩ := start_spec (start_bounded started)
    rw [started] at ran
    cases ran
    exact ⟨by simp [deadline], by simp [stie]⟩
  | snoc earlier last ih => exact step_near off (run_coherent coherent earlier) ih last

/-! ### Runs -/

theorem reaches_limit (policy : b.policy = .timer limit) (reached : b.Reaches passes h)
    (delivered : ∀ p ∈ passes, p.Delivered) (disarmed : ∀ p ∈ passes, p.before.Disarmed limit) :
    (∀ j, (h.loop.tasks j).timers ≤ limit) ∧
      ∀ p ∈ passes, limit ≤ (p.before.tasks p.task).timers → p.event.reason ≠ .timer := by
  obtain ⟨s, started, run⟩ := reached
  have coherent := start_coherent started
  induction run with
  | nil =>
    obtain ⟨s', ran, -, made, left, -⟩ := start_spec (start_bounded started)
    rw [started] at ran
    cases ran
    refine ⟨fun j => ?_, by simp⟩
    rcases b.task_or_spare j with ⟨n, rfl⟩ | spare
    · simp [made, created, blankTask]
    · simp [left j spare, blankTask]
  | @snoc passes m p h' run last ih =>
    obtain ⟨within, quiet⟩ := ih (fun q member => delivered q (List.mem_append_left _ member))
      (fun q member => disarmed q (List.mem_append_left _ member))
    have same : p.before = m.loop := last.1
    have safe : m.loop.Disarmed limit := by
      rw [← same]
      exact disarmed p (by simp)
    obtain ⟨after, now⟩ := step_limit policy (run_coherent coherent run) within last
      (delivered p (by simp)) safe
    refine ⟨after, fun q member => ?_⟩
    rcases List.mem_append.mp member with earlier | only
    · exact quiet q earlier
    · rw [List.mem_singleton.mp only, same]
      exact now

/-- The readings of a pass that takes no kernel time up to a trap at `trap`. -/
theorem instant_nondecreasing (later : now ≤ trap) :
    (Readings.instant now trap).Nondecreasing now trap := by
  simp [Readings.Nondecreasing, Readings.instant, later]

/-- Entering a task without count under a live timer lets the timer interrupt
it when the old deadline comes. -/
theorem stale_timer (policy : b.policy = .timer limit) (coherent : Coherent b h.loop)
    (timed : b.Timed h) (near : Near h) (room : h.clock ≤ usizeMax - 20 * T)
    (switches : b.profile.Fits h.loop.switches) (dropped : b.profile.Fits h.loop.dropped)
    (armed : ¬ h.loop.Disarmed limit) :
    ∃ p h', b.Step h p h' ∧ p.Delivered ∧ limit < (h'.loop.tasks p.task).timers := by
  have off : b.mlfq = false := by simp [mlfq, policy]
  have small : 20 * T ≤ usizeMax := by decide
  have quantum : T ≤ 20 * T - T := by decide
  simp only [Loop.Disarmed, not_forall] at armed
  obtain ⟨i, next, spent, on⟩ := armed
  have live : h.loop.stie = true := by simpa using on
  let trap := max h.clock h.loop.timecmp
  let r := Readings.instant h.clock trap
  have start := timed.base
  have due := near.timecmp live
  have calm : ¬ b.Overflows r h.loop := by
    rintro (⟨due, -⟩ | ⟨-, -, full⟩)
    · exact Bool.false_ne_true (off.symm.trans due.1)
    · exact full switches
  obtain ⟨entered, runs⟩ := enter_runs (r := r) coherent (by simp [off]) start
    (show h.clock + 20 * T ≤ usizeMax by omega) (show h.clock + 20 * T ≤ usizeMax by omega)
    (show h.clock + 20 * T ≤ usizeMax by omega) calm
  cases entered with
  | none =>
    obtain ⟨idle, empty⟩ := break_view runs
    simp [Loop.upcoming, idle, empty] at next
  | some pick =>
    obtain ⟨j, e⟩ := pick
    have view := enter_view runs
    have same := entered_upcoming off view
    rw [next] at same
    obtain rfl := Option.some.inj same
    let event : Exchange := ⟨e.exchange.expected, (e.tasks i).frame, .timer, trap⟩
    have entry := trapped_coherent (i := i) (entered_coherent coherent view) event
    have forward : h.clock ≤ trap := le_max_left _ _
    have bound : trap + T ≤ usizeMax := by omega
    cases after : b.settle r i (e.trapped i event) with
    | error cause =>
      rcases settle_fails entry view.current (by simp [off]) forward bound after with ⟨-, failing⟩ | ⟨-, full⟩
      · rcases failing with ⟨code, -, other⟩ | ⟨cause, other⟩ <;> cases other
      · exact absurd (view.dropped ▸ dropped) full
    | ok s' =>
      have step : b.Step h ⟨h.loop, r, i, e, event, s'⟩ ⟨s', r.requeued⟩ :=
        ⟨rfl, instant_nondecreasing forward, runs, after, rfl⟩
      obtain ⟨programmed, back, counted⟩ := step_counted coherent step
      obtain ⟨stie, timecmp⟩ := spent_timer policy programmed spent
      refine ⟨_, _, step, fun _ => ⟨stie.trans live, timecmp.trans_le (le_max_right _ _)⟩, ?_⟩
      have timers : (s'.tasks i).timers = (e.tasks i).timers + 1 := counted.timers
      have before : (e.tasks i).timers = (h.loop.tasks i).timers := (programmed.counts i).timers
      change limit < (s'.tasks i).timers
      omega

/-- A batch under `Policy::Timer(limit)` keeps the limit in every run that
never enters a task without count under a live timer. And once such an entry
is next, the timer can interrupt the task once more, if clock and counters have
room for the pass. -/
theorem timers_within_limit (b : Batch) (policy : b.policy = .timer limit)
    (reached : b.Reaches passes h) (delivered : ∀ p ∈ passes, p.Delivered) :
    ((∀ p ∈ passes, p.before.Disarmed limit) → (∀ j, (h.loop.tasks j).timers ≤ limit) ∧
      ∀ p ∈ passes, limit ≤ (p.before.tasks p.task).timers → p.event.reason ≠ .timer) ∧
    (h.clock ≤ usizeMax - 20 * T → b.profile.Fits h.loop.switches → b.profile.Fits h.loop.dropped →
      ¬ h.loop.Disarmed limit → ∃ p h', b.Step h p h' ∧ p.Delivered ∧ limit < (h'.loop.tasks p.task).timers) := by
  have off : b.mlfq = false := by simp [mlfq, policy]
  exact ⟨reaches_limit policy reached delivered, stale_timer policy (reaches_coherent reached)
    (reaches_timed reached) (reaches_near off reached)⟩

end Batch

/-- Two tasks that yield a lot, under one one-shot timer each. -/
def yielders : Batch where
  profile := .dev
  policy := .timer 1
  specs := [Spec.new 2 5000, Spec.new 2 5000]
  nonempty := by simp
  fits := by decide
  image := (rehearsal .rr).image
  sstatus := 0
  mailbox := ⟨0, ZERO_FRAME, .syscall, 0⟩
  base := 0

/-- The first task takes its only timer trap and yields. The second arms the
timer and yields, and the first is entered again. -/
def stale : List (Readings × Exchange) :=
  [(.instant 0 10000, ⟨0, ZERO_FRAME, .timer, 10000⟩),
    (.instant 10000 11000, ⟨0, ZERO_FRAME, .yield, 11000⟩),
    (.instant 11000 12000, ⟨0, ZERO_FRAME, .yield, 12000⟩),
    (.instant 12000 21000, ⟨0, ZERO_FRAME, .timer, 21000⟩)]

theorem stale_timer_counted : ¬ ∀ passes h, yielders.Reaches passes h →
    (∀ p ∈ passes, p.Delivered) → ∀ j, (h.loop.tasks j).timers ≤ 1 := by
  intro claim
  have plays : (yielders.play stale).map (fun run =>
      (run.1.all fun p => decide p.Delivered, (run.2.loop.tasks ⟨0, by decide⟩).timers)) =
      some (true, 2) := by decide +kernel
  obtain ⟨⟨passes, h⟩, played, facts⟩ := Option.map_eq_some_iff.mp plays
  obtain ⟨delivered, timers⟩ := Prod.mk.inj facts
  have within := claim passes h (Batch.play_reaches played)
    (fun p member => of_decide_eq_true (List.all_eq_true.mp delivered p member)) ⟨0, by decide⟩
  dsimp only at timers
  omega

theorem timers_within_limit_rehearsal : ∃ passes h, (rehearsal (.timer 1)).Reaches passes h ∧
    passes.length = 1 ∧ ∀ j, (h.loop.tasks j).timers ≤ 1 := by
  have plays : ((rehearsal (.timer 1)).play ((rehearsed 0).take 1)).map (fun run =>
      (run.1.all fun p => decide p.Delivered ∧ p.before.stie = false, run.1.length)) =
      some (true, 1) := by decide +kernel
  obtain ⟨⟨passes, h⟩, played, facts⟩ := Option.map_eq_some_iff.mp plays
  obtain ⟨good, length⟩ := Prod.mk.inj facts
  have each (p : Pass) (member : p ∈ passes) : p.Delivered ∧ p.before.stie = false := by
    simpa using List.all_eq_true.mp good p member
  have reached := Batch.play_reaches played
  exact ⟨passes, h, reached, length, ((Batch.timers_within_limit (rehearsal (.timer 1)) rfl reached
    (fun p member => (each p member).1)).1 (fun p member _ _ _ => (each p member).2)).1⟩

end Neonos.Scheduler
