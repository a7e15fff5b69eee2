import Neonos.QueueOrder

/-! What one pass does to the counters, the event record, the RR deadline and
the timer. These are the parts of the loop that no scheduling decision of MLFQ
looks at. -/
namespace Neonos.Scheduler
open StableChoice Runs

/-- Two records of one task with the same counters. -/
structure SameCounts (t t' : Task) : Prop where
  timers : t'.timers = t.timers
  yields : t'.yields = t.yields
  syscalls : t'.syscalls = t.syscalls
  preemptions : t'.preemptions = t.preemptions

theorem SameCounts.refl (t : Task) : SameCounts t t := ⟨rfl, rfl, rfl, rfl⟩

theorem SameCounts.trans {t u v : Task} (first : SameCounts t u) (second : SameCounts u v) :
    SameCounts t v :=
  ⟨second.timers.trans first.timers, second.yields.trans first.yields,
    second.syscalls.trans first.syscalls, second.preemptions.trans first.preemptions⟩

namespace Loop
variable (s : Loop) (i : TaskId) (back : Bool)

@[simp] theorem recorded_tasks : (s.recorded i back).tasks = s.tasks := rfl

@[simp] theorem recorded_ready : (s.recorded i back).ready = s.ready := rfl

@[simp] theorem recorded_current : (s.recorded i back).current = s.current := rfl

@[simp] theorem recorded_deadline : (s.recorded i back).deadline = s.deadline := rfl

@[simp] theorem recorded_stie : (s.recorded i back).stie = s.stie := rfl

@[simp] theorem recorded_timecmp : (s.recorded i back).timecmp = s.timecmp := rfl

theorem recorded_pair : ((s.recorded i back).trace, (s.recorded i back).dropped) =
    if s.exchange.reason ≠ .syscall ∨ back = true
      then recordedIn s.trace s.dropped (i, s.exchange.reason) else (s.trace, s.dropped) := rfl

end Loop

namespace Batch
variable {b : Batch} {r : Readings} {s s' e : Loop} {i : TaskId}

/-! ### From a loop head to `run_task` -/

/-- What the first half of a pass does to counters, deadline and timer. -/
structure Programmed (b : Batch) (r : Readings) (s : Loop) (i : TaskId) (e : Loop) : Prop where
  counts : ∀ j, SameCounts (s.tasks j) (e.tasks j)
  deadline : b.mlfq = false → e.deadline = if s.current = none then r.quantum + T else s.deadline
  timecmp : e.timecmp = if b.Arms (e.tasks i) then e.deadline else s.timecmp
  stie : e.stie = if b.Arms (e.tasks i) then true else s.stie

theorem risen_counts (b : Batch) (r : Readings) (s : Loop) (i : TaskId) :
    SameCounts (s.tasks i) (b.risen r s i) := by
  by_cases due : b.BoostDue r s
  · by_cases active : b.Boosted i (s.tasks i)
    · simp only [risen, due, lifted, lift, active, ↓reduceIte]
      exact ⟨rfl, rfl, rfl, rfl⟩
    · simp only [risen, due, lifted, lift, active, ↓reduceIte]
      exact .refl _
  · simp only [risen, due, ↓reduceIte]
    exact .refl _

theorem raise_timer (raised : b.raise r s = .ok s') : s'.current = s.current ∧
    s'.deadline = s.deadline ∧ s'.timecmp = s.timecmp ∧ s'.stie = s.stie := by
  rcases raise_ok raised with ⟨-, rfl⟩ | ⟨-, -, -, rfl⟩
  · exact ⟨rfl, rfl, rfl, rfl⟩
  · exact ⟨rfl, rfl, rfl, rfl⟩

theorem enter_programmed (entered : b.enter r s = .ok (some (i, e))) : b.Programmed r s i e := by
  obtain ⟨raised, chosen, lifted, picked, ran⟩ := enter_some entered
  have view := enter_view entered
  obtain ⟨current, deadline, timecmp, stie⟩ := raise_timer lifted
  obtain ⟨rfl, -⟩ := arm_ok ran
  have counts (j : TaskId) : SameCounts (s.tasks j) ((b.armed r i chosen).tasks j) := by
    apply (b.risen_counts r s j).trans
    rcases view.choice with ⟨-, tasks, -⟩ | ⟨-, -, tasks, -⟩
    · rw [tasks]
      exact .refl _
    · rw [tasks]
      by_cases same : j = i
      · subst same
        rw [Function.update_self]
        exact ⟨rfl, rfl, rfl, rfl⟩
      · rw [Function.update_of_ne same]
        exact .refl _
  rcases dispatch_some picked with ⟨held, rfl⟩ | ⟨idle, ready, -, -, -, rfl⟩
  · refine ⟨counts, fun off => ?_, ?_, ?_⟩
    · simp only [armed, armedDeadline, off, Bool.false_eq_true, ↓reduceIte]
      rw [← current, held, deadline]
      simp
    · rw [← timecmp]
      rfl
    · rw [← stie]
      rfl
  · refine ⟨counts, fun off => ?_, ?_, ?_⟩
    · simp only [armed, armedDeadline, off, Bool.false_eq_true, ↓reduceIte]
      rw [← current, idle]
      simp
    · rw [← timecmp]
      rfl
    · rw [← stie]
      rfl

/-! ### From `run_task` to the next loop head -/

/-- What the second half of a pass does to counters, record, deadline and
timer. `back` is the flag `requeue` in the end. -/
structure Counted (b : Batch) (r : Readings) (i : TaskId) (e s' : Loop) (back : Bool) : Prop where
  others : ∀ j, j ≠ i → s'.tasks j = e.tasks j
  timers : (s'.tasks i).timers = (e.tasks i).timers + if e.exchange.reason = .timer then 1 else 0
  yields : (s'.tasks i).yields = (e.tasks i).yields + if e.exchange.reason = .yield then 1 else 0
  syscalls : (s'.tasks i).syscalls =
    (e.tasks i).syscalls + if e.exchange.reason = .syscall then 1 else 0
  preemptions : (s'.tasks i).preemptions = (e.tasks i).preemptions +
    if back = true ∧ (e.exchange.reason = .timer ∨ e.exchange.reason = .syscall) then 1 else 0
  record : (s'.trace, s'.dropped) = if e.exchange.reason ≠ .syscall ∨ back = true
    then Loop.recordedIn e.trace e.dropped (i, e.exchange.reason) else (e.trace, e.dropped)
  fits : e.Drops back → b.profile.Fits e.dropped
  deadline : s'.deadline = e.deadline ∨
    ∃ limit, b.policy = .timer limit ∧ e.exchange.reason = .timer ∧ s'.deadline = r.limit + T
  timer : (s'.stie = e.stie ∧ s'.timecmp = e.timecmp) ∨
    (b.policy = .timer ((e.tasks i).timers + 1) ∧ e.exchange.reason = .timer ∧ s'.stie = false)
  reason : b.Ends i e.exchange.reason ∨ e.exchange.reason = .yield ∨ e.exchange.reason = .timer ∨
    e.exchange.reason = .syscall
  goes : back = true → s'.current = none ∧ (s'.tasks i).state = .ready ∧
    s'.ready.contents = e.ready.contents ++ [i]
  stays : back = false → s'.ready = e.ready ∧
    ((b.Ends i e.exchange.reason ∧ s'.current = none ∧ (s'.tasks i).state = .done) ∨
      (¬ b.Ends i e.exchange.reason ∧ s'.current = e.current ∧ (s'.tasks i).state = .running))
  yielding : e.exchange.reason = .yield → back = true
  ticking : e.exchange.reason = .timer → (back = true ↔ ∀ limit, b.policy ≠ .timer limit)
  quantum : e.exchange.reason = .syscall → b.policy = .rr →
    (back = true ↔ e.deadline ≤ e.exchange.time)
  calling : e.exchange.reason = .syscall → b.mlfq = false → b.policy ≠ .rr → back = false
  ended : b.Ends i e.exchange.reason → back = false

theorem Ends.neither {reason : Reason} (ends : b.Ends i reason) :
    reason ≠ .yield ∧ reason ≠ .timer ∧ reason ≠ .syscall := by
  rcases ends with rfl | ⟨rfl, -⟩
  · simp
  · simp

theorem charged_counts (b : Batch) (delta : Nat) (t : Task) : SameCounts t (b.charged delta t) := by
  obtain ⟨slice, allot, same⟩ := charged_eq b delta t
  rw [same]
  exact ⟨rfl, rfl, rfl, rfl⟩

/-- What `match event.reason` does to counters, deadline and timer. -/
structure Heard (b : Batch) (r : Readings) (i : TaskId) (s : Loop) (t : Task) (s' : Loop) (t' : Task)
    (flag : Bool) : Prop where
  timers : t'.timers = t.timers + if s.exchange.reason = .timer then 1 else 0
  yields : t'.yields = t.yields + if s.exchange.reason = .yield then 1 else 0
  syscalls : t'.syscalls = t.syscalls + if s.exchange.reason = .syscall then 1 else 0
  preemptions : t'.preemptions = t.preemptions
  exchange : s'.exchange = s.exchange
  ready : s'.ready = s.ready
  tasks : s'.tasks = s.tasks
  record : s'.trace = s.trace ∧ s'.dropped = s.dropped
  deadline : s'.deadline = s.deadline ∨
    ∃ limit, b.policy = .timer limit ∧ s.exchange.reason = .timer ∧ s'.deadline = r.limit + T
  timer : (s'.stie = s.stie ∧ s'.timecmp = s.timecmp) ∨
    (b.policy = .timer (t.timers + 1) ∧ s.exchange.reason = .timer ∧ s'.stie = false)
  reason : b.Ends i s.exchange.reason ∨ s.exchange.reason = .yield ∨ s.exchange.reason = .timer ∨
    s.exchange.reason = .syscall
  ends : b.Ends i s.exchange.reason → flag = false ∧ t'.state = .done ∧ s'.current = none
  lives : ¬ b.Ends i s.exchange.reason → t'.state = t.state ∧ s'.current = s.current
  yielding : s.exchange.reason = .yield → flag = true
  ticking : s.exchange.reason = .timer → (flag = true ↔ ∀ limit, b.policy ≠ .timer limit)
  calling : s.exchange.reason = .syscall → flag = false

theorem Answered.heard {t t' : Task} (ran : Answered b r i s t s' t' flag) :
    Heard b r i s t s' t' flag := by
  have goes (reason : s.exchange.reason = .yield ∨ s.exchange.reason = .timer ∨
      s.exchange.reason = .syscall) : ¬ b.Ends i s.exchange.reason := by
    intro ends
    have none_ := ends.neither
    tauto
  cases ran with
  | ended how =>
    have none_ := how.neither
    refine ⟨?_, ?_, ?_, rfl, rfl, rfl, rfl, ⟨rfl, rfl⟩, .inl rfl, .inl ⟨rfl, rfl⟩, .inl how,
      fun _ => ⟨rfl, rfl, rfl⟩, fun lives => absurd how lives, ?_, ?_, ?_⟩
    all_goals simp [none_]
  | yielded how =>
    refine ⟨?_, ?_, ?_, rfl, rfl, rfl, rfl, ⟨rfl, rfl⟩, .inl rfl, .inl ⟨rfl, rfl⟩, .inr (.inl how),
      fun ends => absurd ends (goes (.inl how)), fun _ => ⟨rfl, rfl⟩, ?_, ?_, ?_⟩
    all_goals simp [how]
  | preempted how free =>
    refine ⟨?_, ?_, ?_, rfl, rfl, rfl, rfl, ⟨rfl, rfl⟩, .inl rfl, .inl ⟨rfl, rfl⟩,
      .inr (.inr (.inl how)), fun ends => absurd ends (goes (.inr (.inl how))), fun _ => ⟨rfl, rfl⟩,
      ?_, fun _ => ⟨fun _ => free, fun _ => rfl⟩, ?_⟩
    all_goals simp [how]
  | @spent limit how policy last =>
    refine ⟨?_, ?_, ?_, rfl, rfl, rfl, rfl, ⟨rfl, rfl⟩, .inl rfl, .inr ⟨last ▸ policy, how, rfl⟩,
      .inr (.inr (.inl how)), fun ends => absurd ends (goes (.inr (.inl how))), fun _ => ⟨rfl, rfl⟩,
      ?_, fun _ => ⟨by simp, fun free => absurd policy (free limit)⟩, ?_⟩
    all_goals simp [how]
  | @rearmed limit how policy more bounded =>
    refine ⟨?_, ?_, ?_, rfl, rfl, rfl, rfl, ⟨rfl, rfl⟩, .inr ⟨limit, policy, how, rfl⟩,
      .inl ⟨rfl, rfl⟩, .inr (.inr (.inl how)), fun ends => absurd ends (goes (.inr (.inl how))),
      fun _ => ⟨rfl, rfl⟩, ?_, fun _ => ⟨by simp, fun free => absurd policy (free limit)⟩, ?_⟩
    all_goals simp [how]
  | called how =>
    refine ⟨?_, ?_, ?_, rfl, rfl, rfl, rfl, ⟨rfl, rfl⟩, .inl rfl, .inl ⟨rfl, rfl⟩,
      .inr (.inr (.inr how)), fun ends => absurd ends (goes (.inr (.inr how))), fun _ => ⟨rfl, rfl⟩,
      ?_, ?_, ?_⟩
    all_goals simp [how]

theorem Accounted.counts {t t' : Task} (ran : Accounted b s t flag t' requeue) :
    SameCounts t t' ∧ t'.state = t.state := by
  cases ran with
  | ended | demoted | refilled | inside | expired | kept => exact ⟨⟨rfl, rfl, rfl, rfl⟩, rfl⟩

/-- The budget rules and the quantum can only raise the flag. -/
theorem Accounted.raises {t t' : Task} (ran : Accounted b s t true t' requeue) : requeue = true := by
  cases ran <;> rfl

theorem Accounted.ended_flag {t t' : Task} (ran : Accounted b s t flag t' requeue)
    (stopped : t.state = .done) : requeue = flag := by
  cases ran with
  | ended => rfl
  | demoted live | refilled live | inside live | expired live | kept live => exact absurd stopped live

theorem Accounted.quantum {t t' : Task} (ran : Accounted b s t false t' requeue)
    (live : t.state ≠ .done) (policy : b.policy = .rr) :
    requeue = true ↔ s.deadline ≤ s.exchange.time := by
  have off : b.mlfq = false := by simp [mlfq, policy]
  cases ran with
  | ended stopped => exact absurd stopped live
  | demoted _ on | refilled _ on | inside _ on => simp [off] at on
  | expired _ _ late => simp [late]
  | kept _ _ early => simp [early policy]

theorem Accounted.idle {t t' : Task} (ran : Accounted b s t flag t' requeue) (off : b.mlfq = false)
    (policy : b.policy ≠ .rr) : requeue = flag := by
  cases ran with
  | ended | kept => rfl
  | demoted _ on | refilled _ on | inside _ on => simp [off] at on
  | expired _ rr => exact absurd rr policy

theorem settle_counted (running : (e.tasks i).state = .running)
    (ran : b.settle r i e = .ok s') : ∃ back, b.Counted r i e s' back := by
  obtain ⟨s₁, t₁, flag, t₂, back, s₂, -, answered, accounted, stored, kept⟩ := settle_ok ran
  obtain ⟨fits, rfl⟩ := Loop.record_ok.mp kept
  rw [charged_frame] at answered
  have charged := b.charged_counts (e.exchange.time - r.entered) (e.tasks i)
  have state : (b.charged (e.exchange.time - r.entered) (e.tasks i)).state = .running := by
    obtain ⟨slice, allot, same⟩ := charged_eq b (e.exchange.time - r.entered) (e.tasks i)
    rw [same]
    exact running
  have heard := answered.heard
  obtain ⟨counts, state₂⟩ := accounted.counts
  have timers : t₂.timers = (e.tasks i).timers + if e.exchange.reason = .timer then 1 else 0 := by
    rw [counts.timers, heard.timers, ← charged.timers]
  have yields : t₂.yields = (e.tasks i).yields + if e.exchange.reason = .yield then 1 else 0 := by
    rw [counts.yields, heard.yields, ← charged.yields]
  have syscalls : t₂.syscalls =
      (e.tasks i).syscalls + if e.exchange.reason = .syscall then 1 else 0 := by
    rw [counts.syscalls, heard.syscalls, ← charged.syscalls]
  have preemptions : t₂.preemptions = (e.tasks i).preemptions := by
    rw [counts.preemptions, heard.preemptions, ← charged.preemptions]
  have live (goes : ¬ b.Ends i e.exchange.reason) : t₁.state ≠ .done := by
    rw [(heard.lives goes).1]
    change (b.charged _ _).state ≠ _
    rw [state]
    simp
  have flags : (e.exchange.reason = .yield → back = true) ∧
      (e.exchange.reason = .timer → (back = true ↔ ∀ limit, b.policy ≠ .timer limit)) ∧
      (e.exchange.reason = .syscall → b.policy = .rr → (back = true ↔ e.deadline ≤ e.exchange.time)) ∧
      (e.exchange.reason = .syscall → b.mlfq = false → b.policy ≠ .rr → back = false) ∧
      (b.Ends i e.exchange.reason → back = false) := by
    refine ⟨fun how => ?_, fun how => ?_, fun how policy => ?_, fun how off policy => ?_, fun ends => ?_⟩
    · obtain rfl := heard.yielding how
      exact accounted.raises
    · constructor
      · intro up limit policy
        have off : b.mlfq = false := by simp [mlfq, policy]
        rw [accounted.idle off (by simp [policy])] at up
        exact (heard.ticking how).mp up limit policy
      · intro free
        obtain rfl := (heard.ticking how).mpr free
        exact accounted.raises
    · obtain rfl := heard.calling how
      have goes : ¬ b.Ends i e.exchange.reason := fun ends => ends.neither.2.2 how
      have same : s₁.deadline = e.deadline := by
        rcases heard.deadline with same | ⟨_, _, other, _⟩
        · exact same
        · rw [how] at other
          cases other
      rw [accounted.quantum (live goes) policy, same, heard.exchange]
    · rw [accounted.idle off policy]
      exact heard.calling how
    · rw [accounted.ended_flag (heard.ends ends).2.1]
      exact (heard.ends ends).1
  obtain ⟨yielding, ticking, quantum, calling, ended⟩ := flags
  have current (goes : ¬ b.Ends i e.exchange.reason) : s₁.current = e.current := (heard.lives goes).2
  have full {s : Loop} (trace : s.trace = s₁.trace) (exchange : s.exchange = s₁.exchange)
      (drops : e.Drops back) : s.Drops back := by
    unfold Loop.Drops at drops ⊢
    rwa [trace, exchange, heard.record.1, heard.exchange]
  rcases store_ok stored with ⟨rfl, rfl⟩ | ⟨rfl, -, ready, appended, rfl⟩
  · refine ⟨false, ?_, ?_, ?_, ?_, ?_, ?_, fun drops => ?_, ?_, ?_, heard.reason, by simp, fun _ => ?_, yielding,
      ticking, quantum, calling, ended⟩
    · intro j different
      simp [Loop.setTask, Function.update_of_ne different, heard.tasks]
    · simpa [Loop.setTask] using timers
    · simpa [Loop.setTask] using yields
    · simpa [Loop.setTask] using syscalls
    · simpa [Loop.setTask] using preemptions
    · rw [Loop.recorded_pair]
      simp only [Loop.setTask, heard.exchange, heard.record]
    · rw [← heard.record.2]
      exact fits (full rfl rfl drops)
    · simpa [Loop.setTask] using heard.deadline
    · simpa [Loop.setTask, ← charged.timers] using heard.timer
    · refine ⟨by simp [Loop.setTask, heard.ready], ?_⟩
      by_cases ends : b.Ends i e.exchange.reason
      · refine .inl ⟨ends, ?_, ?_⟩
        · simpa [Loop.setTask] using (heard.ends ends).2.2
        · simp [Loop.setTask, state₂, (heard.ends ends).2.1]
      · refine .inr ⟨ends, ?_, ?_⟩
        · simpa [Loop.setTask] using current ends
        · simp [Loop.setTask, state₂, (heard.lives ends).1, state]
  · refine ⟨true, ?_, ?_, ?_, ?_, ?_, ?_, fun drops => ?_, ?_, ?_, heard.reason, fun _ => ?_, by simp, yielding,
      ticking, quantum, calling, ended⟩
    · intro j different
      simp [Loop.setTask, Function.update_of_ne different, heard.tasks]
    · simpa [Loop.setTask, requeued] using timers
    · simpa [Loop.setTask, requeued] using yields
    · simpa [Loop.setTask, requeued] using syscalls
    · simp only [Loop.recorded_tasks, Loop.setTask, Function.update_self, requeued, heard.exchange,
        preemptions, true_and]
      split <;> rfl
    · rw [Loop.recorded_pair]
      simp only [Loop.setTask, heard.exchange, heard.record]
    · rw [← heard.record.2]
      exact fits (full rfl rfl drops)
    · simpa [Loop.setTask] using heard.deadline
    · simpa [Loop.setTask, ← charged.timers] using heard.timer
    · refine ⟨by simp, by simp [Loop.setTask, requeued], ?_⟩
      simpa [heard.ready] using appended

variable {h h' : Head} {p : Pass}

/-- Both halves of a pass, as the counters, the record and the timer see it. -/
theorem step_counted (coherent : Coherent b h.loop) (step : b.Step h p h') :
    b.Programmed p.readings h.loop p.task p.entry ∧
      ∃ back, b.Counted p.readings p.task (p.entry.trapped p.task p.event) p.after back := by
  have passed := step_view coherent step
  obtain ⟨before, -, entered, settled, -⟩ := step
  rw [before] at entered
  refine ⟨enter_programmed entered, settle_counted ?_ settled⟩
  exact (passed.entry.running p.task).mp passed.entered.current

end Batch

end Neonos.Scheduler
