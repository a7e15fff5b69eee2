import Neonos.MlfqTrace
import Neonos.TimerLimit

/-! The kernel in the environment `experiments/mlfq.py` assumes: its own code
takes no time, and a task traps exactly when its service, its burst or the armed
deadline is over. What such a run executes can be compared with the trace of the
simulator tick by tick. -/
namespace Neonos.Scheduler
open Runs

/-- One tick of the simulator in platform ticks: it counts two to the quantum. -/
def half : Nat := T / 2

/-- What can end the user interval that job `i` begins at `clock`, and when. -/
inductive Due (w : Mlfq.Workload n) (i : Fin n) (used clock deadline : Nat) : Reason → Nat → Prop where
  | finish : Due w i used clock deadline (.exit 0) (clock + (half * w.service i - used))
  | yields (bursts : w.burst i ≠ 0) :
      Due w i used clock deadline .yield (clock + (half * w.burst i - used % (half * w.burst i)))
  | timer : Due w i used clock deadline .timer deadline

/-- The trap is the first thing due. Of several at once the exit wins. -/
structure Traps (w : Mlfq.Workload n) (i : Fin n) (used clock deadline : Nat) (event : Exchange) : Prop where
  due : Due w i used clock deadline event.reason event.time
  earliest : ∀ reason time, Due w i used clock deadline reason time → event.time ≤ time
  exits : Due w i used clock deadline (.exit 0) event.time → event.reason = .exit 0

/-- A loop head and the user time each job has had. -/
structure Bench (n : Nat) where
  head : Head
  used : Fin n → Nat

/-- A pass in the ideal environment. -/
def Batch.IdealStep (b : Batch) (w : Mlfq.Workload b.specs.length) (x : Bench b.specs.length) (p : Pass)
    (y : Bench b.specs.length) : Prop :=
  b.Step x.head p y.head ∧ p.readings = .instant x.head.clock p.event.time ∧
    ∃ i, p.task = b.task i ∧ Traps w i (x.used i) x.head.clock p.entry.timecmp p.event ∧
      y.used = Function.update x.used i (x.used i + p.interval)

/-- A complete run of the batch in the ideal environment: the loop stops at `y`. -/
def Batch.Ideal (b : Batch) (w : Mlfq.Workload b.specs.length) (passes : List Pass)
    (y : Bench b.specs.length) : Prop :=
  ∃ s, b.start = .ok s ∧ Run (b.IdealStep w) ⟨⟨s, b.base⟩, fun _ => 0⟩ passes y ∧
    b.enter (.instant y.head.clock y.head.clock) y.head.loop = .ok none

/-- A tick of user time, with the level the task had in it. -/
structure Executed where
  time : Nat
  task : TaskId
  level : Nat
  deriving DecidableEq

/-- The user interval of a pass, tick by tick. -/
def Pass.executed (p : Pass) : List Executed :=
  (List.range (p.interval / half)).map fun k =>
    ⟨p.readings.entered / half + k, p.task, (p.entry.tasks p.task).level⟩

/-- The job of a demotion. -/
def demoted : Mlfq.Event ι → Option ι
  | .boost _ => none
  | .demote _ job => some job

/-- The same tick in the kernel's run and in the simulator's trace. -/
structure SameTick (b : Batch) (w : Mlfq.Workload b.specs.length) (x : Executed) (y : Mlfq.Tick String) :
    Prop where
  time : x.time = y.time
  task : ∃ i, x.task = b.task i ∧ y.job = w.name i
  level : x.level = y.level.val

/-- A run of the kernel and a report of the simulator say the same, with times
scaled by `half`. -/
structure Agrees (b : Batch) (w : Mlfq.Workload b.specs.length) (passes : List Pass) (tasks : TaskId → Task)
    (r : Mlfq.Report b.specs.length) : Prop where
  whole : ∀ p ∈ passes, half ∣ p.readings.entered ∧ half ∣ p.event.time
  trace : List.Forall₂ (SameTick b w) (passes.flatMap Pass.executed) r.trace
  demotions : ∀ i, (tasks (b.task i)).demotions = (r.events.filterMap demoted).count (w.name i)
  response : ∀ i, ∃ first, (tasks (b.task i)).first = some first ∧
    (first : Int) - b.base = half * (r.jobs i).response
  turnaround : ∀ i, ((tasks (b.task i)).completion : Int) - b.base = half * (r.jobs i).turnaround
  maxWait : ∀ i, (tasks (b.task i)).maxWait = half * (r.jobs i).maxReadyWait

/-! ### The environment always has a trap -/

theorem due_finish {w : Mlfq.Workload n} (due : Due w i used clock deadline (.exit 0) time) :
    time = clock + (half * w.service i - used) := by
  cases due
  rfl

/-- Something is always due, and it is never a fault or a syscall. -/
theorem traps_exist (w : Mlfq.Workload n) (i : Fin n) (used : Nat) (later : clock ≤ deadline) :
    ∃ event, Traps w i used clock deadline event ∧ clock ≤ event.time ∧
      (event.reason = .exit 0 ∨ event.reason = .yield ∨ event.reason = .timer) := by
  let finish := clock + (half * w.service i - used)
  let stop := clock + (half * w.burst i - used % (half * w.burst i))
  have after : clock ≤ finish ∧ clock ≤ stop := ⟨Nat.le_add_right .., Nat.le_add_right ..⟩
  by_cases exits : finish ≤ deadline ∧ (w.burst i ≠ 0 → finish ≤ stop)
  · refine ⟨⟨0, ZERO_FRAME, .exit 0, finish⟩, ⟨.finish, ?_, fun _ => rfl⟩, after.1, .inl rfl⟩
    rintro reason time ⟨⟩
    · exact le_rfl
    · exact exits.2 ‹_›
    · exact exits.1
  by_cases yields : w.burst i ≠ 0 ∧ stop ≤ deadline
  · have sooner : stop < finish := by
      by_contra late
      exact exits ⟨(not_lt.mp late).trans yields.2, fun _ => not_lt.mp late⟩
    refine ⟨⟨0, ZERO_FRAME, .yield, stop⟩, ⟨.yields yields.1, ?_, fun due => ?_⟩, after.2, .inr (.inl rfl)⟩
    · rintro reason time ⟨⟩
      · exact sooner.le
      · exact le_rfl
      · exact yields.2
    · exact absurd (due_finish due) sooner.ne
  · have sooner : deadline < finish := by
      by_contra late
      refine exits ⟨not_lt.mp late, fun bursts => ?_⟩
      by_contra early
      exact yields ⟨bursts, (not_le.mp early).le.trans (not_lt.mp late)⟩
    refine ⟨⟨0, ZERO_FRAME, .timer, deadline⟩, ⟨.timer, ?_, fun due => ?_⟩, later, .inr (.inr rfl)⟩
    · rintro reason time ⟨⟩
      · exact sooner.le
      · rename_i bursts
        by_contra early
        exact yields ⟨bursts, (not_le.mp early).le⟩
      · exact le_rfl
    · exact absurd (due_finish due) sooner.ne

/-! ### What a pass of MLFQ arms, and when it goes through -/

namespace Batch
variable {b : Batch} {r : Readings} {s e : Loop} {i : TaskId}

theorem entered_deadline (policy : b.policy = .mlfq) (entered : b.enter r s = .ok (some (i, e))) :
    e.timecmp = r.armed + available r e (e.tasks i) := by
  obtain ⟨raised, chosen, -, -, ran⟩ := enter_some entered
  obtain ⟨rfl, -⟩ := arm_ok ran
  have arms : b.Arms (chosen.tasks i) := by simp [Arms, policy]
  have on : b.mlfq = true := by simp [mlfq, policy]
  simp only [armed, armedDeadline, arms, on, ↓reduceIte]
  rfl

/-- The boost deadline always fits a `usize`. -/
theorem raise_bounded (raised : b.raise r s = .ok s') (bounded : s.boost ≤ usizeMax) : s'.boost ≤ usizeMax := by
  rcases raise_ok raised with ⟨-, rfl⟩ | ⟨-, -, fits, rfl⟩
  · exact bounded
  · exact fits

theorem dispatch_boost (picked : b.dispatch r s = .ok (some (i, s'))) : s'.boost = s.boost := by
  rcases dispatch_some picked with ⟨-, rfl⟩ | ⟨-, _, -, -, -, rfl⟩
  · rfl
  · rfl

theorem entered_bounded (entered : b.enter r s = .ok (some (i, e))) (bounded : s.boost ≤ usizeMax) :
    e.boost ≤ usizeMax := by
  obtain ⟨raised, chosen, lifted, picked, ran⟩ := enter_some entered
  obtain ⟨rfl, -⟩ := arm_ok ran
  exact (dispatch_boost picked).trans_le (raise_bounded lifted bounded)

/-- A boost in a build that checks had room for its deadline. -/
theorem enter_room (entered : b.enter r s = .ok picked) (checks : b.profile = .dev) (due : b.BoostDue r s) :
    b.base + b.periods r.boosted ≤ usizeMax := by
  have raises : ∃ raised, b.raise r s = .ok raised := by
    cases picked with
    | none =>
      obtain ⟨raised, lifted, -⟩ := enter_none entered
      exact ⟨raised, lifted⟩
    | some pick =>
      obtain ⟨raised, -, lifted, -⟩ := enter_some entered
      exact ⟨raised, lifted⟩
  obtain ⟨raised, lifted⟩ := raises
  rcases raise_ok lifted with ⟨early, -⟩ | ⟨-, raises, bounded, -⟩
  · exact absurd due early
  · exact (raises.room checks bounded).2

/-- A pass at one instant goes through when its times fit and no counter is at its end. -/
theorem enter_instant (policy : b.policy = .mlfq) (coherent : Coherent b s) (times : b.Raisable now)
    (bounded : s.boost ≤ usizeMax) (room : now + T ≤ usizeMax) (calm : ¬ b.Overflows (.instant now trap) s) :
    ∃ picked, b.enter (.instant now trap) s = .ok picked := by
  have on : b.mlfq = true := by simp [mlfq, policy]
  have quantum : 1 ≤ T := by decide
  cases ran : b.enter (.instant now trap) s with
  | ok picked => exact ⟨picked, rfl⟩
  | error cause =>
    refine absurd (enter_fails coherent (fun _ => times) room ?_ ran).2 calm
    intro raised i chosen lifted picked _
    have fits := (dispatch_boost picked).trans_le (raise_bounded lifted bounded)
    unfold armedDeadline available
    rw [if_pos on]
    dsimp only [Readings.instant]
    omega

/-- Nor does it stop at the trap, when that is an exit with 0, a yield or the timer. -/
theorem settle_instant (coherent : Coherent b e) (held : e.current = some i)
    (low : b.mlfq = true → (e.tasks i).level ≤ 2) (forward : now ≤ e.exchange.time)
    (room : e.exchange.time + T ≤ usizeMax) (fits : b.profile.Fits e.dropped)
    (how : e.exchange.reason = .exit 0 ∨ e.exchange.reason = .yield ∨ e.exchange.reason = .timer) :
    ∃ s', b.settle (.instant now e.exchange.time) i e = .ok s' := by
  cases ran : b.settle (.instant now e.exchange.time) i e with
  | ok s' => exact ⟨s', rfl⟩
  | error cause =>
    rcases settle_fails coherent held low forward room ran with ⟨-, failing⟩ | ⟨-, full⟩
    · rcases failing with ⟨code, nonzero, reason⟩ | ⟨cause, reason⟩
      · simp [reason, nonzero] at how
      · simp [reason] at how
    · exact absurd fits full

/-! ### The last boost deadline -/

/-- The last boost deadline that a `usize` holds, counted from 0. -/
def lastBoost : Nat := usizeMax / (20 * T) * (20 * T)

theorem lastBoost_room (early : now ≤ lastBoost) : now + T ≤ usizeMax := by
  have top : lastBoost + T ≤ usizeMax := by decide
  omega

/-- Every deadline that fits comes no later. -/
theorem le_lastBoost (whole : 20 * T ∣ deadline) (fits : deadline ≤ usizeMax) : deadline ≤ lastBoost := by
  obtain ⟨k, rfl⟩ := whole
  unfold lastBoost
  rw [Nat.mul_comm]
  exact Nat.mul_le_mul_right _ ((Nat.le_div_iff_mul_le (by decide)).mpr (by rwa [Nat.mul_comm]))

/-- Before the last deadline there is room for the next one. -/
theorem periods_room (base : b.base = 0) (early : now < lastBoost) : b.base + b.periods now ≤ usizeMax := by
  have before : now / (20 * T) < usizeMax / (20 * T) := (Nat.div_lt_iff_lt_mul (by decide)).mpr early
  unfold periods wrappingSub
  rw [base, if_pos (Nat.zero_le now), Nat.zero_add, Nat.sub_zero]
  exact (Nat.mul_le_mul_right _ before).trans (Nat.div_mul_le_self _ _)

/-- At the last deadline a build that does not check comes to one long past. -/
theorem nextBoost_wraps (base : b.base = 0) : b.nextBoost lastBoost ≤ lastBoost := by
  unfold nextBoost periods wrappingSub
  rw [base, if_pos (Nat.zero_le _)]
  decide

end Batch

end Neonos.Scheduler
