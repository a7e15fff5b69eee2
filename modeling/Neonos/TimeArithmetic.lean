import Neonos.BudgetLedger

/-! The clock arithmetic of `batch`. With a clock that never runs backwards and
stays 20 quanta below the end of a `usize`, every checked or plain operation on
times succeeds, and the boost deadline always lies ahead. What can still stop
the loop there is an `i32` counter at its end, in a build that checks. -/
namespace Neonos.Scheduler
open Runs

namespace Batch
variable {b : Batch} {r : Readings} {s s' e : Loop} {i : TaskId}

/-! ### Every phase goes through -/

theorem periods_le (later : b.base ≤ now) : b.base + b.periods now ≤ now + 20 * T := by
  have whole := Nat.div_mul_le_self (now - b.base) (20 * T)
  unfold periods wrappingSub
  rw [if_pos later, Nat.add_mul, Nat.one_mul]
  omega

/-- Where the periods fit a `usize`, the product does not wrap. -/
theorem nextBoost_eq (room : b.base + b.periods now ≤ usizeMax) : b.nextBoost now = b.base + b.periods now := by
  have top : usizeMax + 1 = 2 ^ 64 := rfl
  unfold nextBoost
  rw [Nat.mod_eq_of_lt (by omega)]

/-- The next boost deadline is the first multiple of the period, counted from
`base`, that lies after the reading. -/
theorem nextBoost_ahead (later : b.base ≤ now) (room : b.base + b.periods now ≤ usizeMax) :
    b.nextBoost now ≡ b.base [MOD 20 * T] ∧ now < b.nextBoost now ∧ b.nextBoost now ≤ now + 20 * T := by
  have split := Nat.div_add_mod (now - b.base) (20 * T)
  have rest := Nat.mod_lt (now - b.base) (show 0 < 20 * T by decide)
  have near := periods_le later
  have shape : b.periods now = 20 * T * ((now - b.base) / (20 * T)) + 20 * T := by
    unfold periods wrappingSub
    rw [if_pos later]
    ring
  rw [nextBoost_eq room]
  refine ⟨?_, by omega, near⟩
  unfold periods
  rw [Nat.ModEq, Nat.add_mul_mod_self_right]

/-- A boost that went through in a build that checks had that room. -/
theorem Raises.room (raises : b.Raises r s) (checks : b.profile = .dev) (bounded : b.nextBoost r.boosted ≤ usizeMax) :
    b.base ≤ r.boosted ∧ b.base + b.periods r.boosted ≤ usizeMax := by
  have top : usizeMax + 1 = 2 ^ 64 := rfl
  obtain ⟨later, inside⟩ := raises.times checks
  unfold nextBoost at bounded
  rw [Nat.mod_eq_of_lt (by omega)] at bounded
  exact ⟨later, bounded⟩

/-- A pass has to bump a counter that is at its end: the boosts, or the
switches when it takes a task from the queue. -/
def Overflows (b : Batch) (r : Readings) (s : Loop) : Prop :=
  (b.BoostDue r s ∧ ¬ b.profile.Fits s.boosts) ∨
    (s.current = none ∧ s.ready.contents ≠ [] ∧ ¬ b.profile.Fits s.switches)

/-- The times of a boost that the build computes without a panic. -/
def Raisable (b : Batch) (now : Nat) : Prop :=
  (b.profile = .dev → b.base ≤ now ∧ b.periods now ≤ usizeMax) ∧ b.nextBoost now ≤ usizeMax

theorem raisable (later : b.base ≤ now) (room : b.base + b.periods now ≤ usizeMax) : b.Raisable now :=
  ⟨fun _ => ⟨later, (Nat.le_add_left _ _).trans room⟩, (nextBoost_eq room).trans_le room⟩

theorem raise_fails (room : b.BoostDue r s → b.Raisable r.boosted) (failed : b.raise r s = .error panicked) :
    panicked = .counterOverflow ∧ b.BoostDue r s ∧ ¬ b.profile.Fits s.boosts := by
  unfold raise at failed
  split at failed
  · rename_i due
    obtain ⟨times, bounded⟩ := room due
    have elapsed : b.profile.sub r.boosted b.base Panic.arithmetic = .ok (wrappingSub r.boosted b.base) :=
      Profile.sub_ok.mpr ⟨fun checks => (times checks).1, rfl⟩
    have product : b.profile.mul (wrappingSub r.boosted b.base / (20 * T) + 1) (20 * T) Panic.arithmetic =
        .ok (b.periods r.boosted % 2 ^ 64) :=
      Profile.mul_ok.mpr ⟨fun checks => (times checks).2, rfl⟩
    have deadline : checkedAdd b.base (b.periods r.boosted % 2 ^ 64) .boostOverflow = .ok (b.nextBoost r.boosted) :=
      checkedAdd_ok.mpr ⟨bounded, rfl⟩
    rw [boost_loop] at failed
    simp only [bind_error, reduceCtorEq, Except.ok.injEq, false_or, exists_eq_left', or_false,
      and_false, exists_false, elapsed, product, deadline] at failed
    obtain ⟨full, rfl⟩ := Profile.bump_error.mp failed
    exact ⟨rfl, due, full⟩
  · cases failed

theorem dispatch_fails (room : r.quantum + T ≤ usizeMax) (failed : b.dispatch r s = .error panicked) :
    panicked = .counterOverflow ∧ s.current = none ∧ s.ready.contents ≠ [] ∧ ¬ b.profile.Fits s.switches := by
  unfold dispatch at failed
  split at failed
  · cases failed
  · rename_i idle
    split at failed
    · cases failed
    · rename_i i ready popped
      have some_ : s.ready.contents ≠ [] := fun empty => by
        rw [Ready.pop_none.mpr empty] at popped
        cases popped
      rcases bind_error.mp failed with late | ⟨_, -, failed⟩
      · rw [after_ok.mpr ⟨by decide, room, rfl⟩] at late
        cases late
      · rcases bind_error.mp failed with full | ⟨_, -, failed⟩
        · obtain ⟨unfit, rfl⟩ := Profile.bump_error.mp full
          exact ⟨rfl, idle, some_, unfit⟩
        · cases failed

theorem arm_runs (room : b.mlfq = true → b.armedDeadline r i s ≤ usizeMax) :
    ∃ s', b.arm r i s = .ok s' := by
  unfold arm
  dsimp only
  split
  · have picked := (pickDeadline_ok (r := r) (i := i) (s := { s with
      slots := Function.update s.slots i (s.tasks i).frame
      exchange := { s.exchange with expected := b.image.framePtr i } })).mpr ⟨room, rfl⟩
    rw [picked]
    dsimp only [bind, Except.bind]
    split
    · exact ⟨_, rfl⟩
    · exact ⟨_, rfl⟩
  · exact ⟨_, rfl⟩

end Batch

/-- Levels and slices of the live tasks stay within the tables. -/
def Loop.Sliced (s : Loop) : Prop :=
  ∀ j, (s.tasks j).state ≠ .done → (s.tasks j).level ≤ 2 ∧ (s.tasks j).slice ≤ 4 * T

namespace Batch
variable {b : Batch} {r : Readings} {s s' e : Loop} {i : TaskId}

theorem fullSlice_le (low : level ≤ 2) : fullSlice level ≤ 4 * T := by
  match level with
  | 0 | 1 | 2 => decide

theorem reaches_sliced (on : b.mlfq = true) (reached : b.Reaches passes h) : h.loop.Sliced := by
  intro j live
  have fits := reaches_fits on reached live
  have whole := fits.slice
  have bound := fullSlice_le fits.low
  exact ⟨fits.low, by omega⟩

theorem risen_sliced (sliced : s.Sliced) (live : (s.tasks j).state ≠ .done) :
    (b.risen r s j).level ≤ 2 ∧ (b.risen r s j).slice ≤ 4 * T := by
  by_cases due : b.BoostDue r s
  · by_cases active : b.Boosted j (s.tasks j)
    · simp only [risen, due, ↓reduceIte, lifted, lift, active, Task.refreshed]
      exact ⟨Nat.zero_le 2, fullSlice_le (Nat.zero_le 2)⟩
    · simpa [risen, due, lifted, lift, active] using sliced j live
  · simpa [risen, due] using sliced j live

theorem available_le {t : Task} (sliced : t.slice ≤ 4 * T) : available r s t ≤ 4 * T := by
  unfold available
  have one : 1 ≤ 4 * T := by decide
  omega

theorem raise_view (raised : b.raise r s = .ok s') :
    s'.tasks = b.risen r s ∧ s'.current = s.current ∧ s'.ready = s.ready ∧ s'.switches = s.switches := by
  rcases raise_ok raised with ⟨early, rfl⟩ | ⟨due, -, -, rfl⟩
  · simp [risen, early]
  · simp [risen, due]

/-- A pass whose boost deadline, quantum and armed deadline fit gets to the call
of `run_task`, or to a counter at its end. -/
theorem enter_fails (coherent : Coherent b s) (times : b.BoostDue r s → b.Raisable r.boosted)
    (room : r.quantum + T ≤ usizeMax)
    (arms : ∀ raised i chosen, b.raise r s = .ok raised → b.dispatch r raised = .ok (some (i, chosen)) →
      b.mlfq = true → b.armedDeadline r i chosen ≤ usizeMax)
    (failed : b.enter r s = .error panicked) : panicked = .counterOverflow ∧ b.Overflows r s := by
  unfold enter at failed
  rw [if_pos (coherent_checks coherent)] at failed
  rcases bind_error.mp failed with unraised | ⟨raised, lifted, failed⟩
  · obtain ⟨rfl, full⟩ := raise_fails times unraised
    exact ⟨rfl, .inl full⟩
  obtain ⟨-, current, ready, switches⟩ := raise_view lifted
  rcases bind_error.mp failed with unchosen | ⟨next, picked, failed⟩
  · obtain ⟨rfl, full⟩ := dispatch_fails room unchosen
    rw [current, ready, switches] at full
    exact ⟨rfl, .inr full⟩
  cases next with
  | none => cases failed
  | some pick =>
    obtain ⟨i, chosen⟩ := pick
    obtain ⟨e, ran⟩ := arm_runs (arms raised i chosen lifted picked)
    rcases bind_error.mp failed with unarmed | ⟨_, -, failed⟩
    · rw [ran] at unarmed
      cases unarmed
    · cases failed

/-- From a loop head to the call of `run_task` only a counter can stop the kernel. -/
theorem enter_counts (coherent : Coherent b s) (sliced : b.mlfq = true → s.Sliced)
    (later : b.base ≤ r.boosted) (boosted : r.boosted + 20 * T ≤ usizeMax)
    (quantum : r.quantum + 20 * T ≤ usizeMax) (armed : r.armed + 20 * T ≤ usizeMax)
    (failed : b.enter r s = .error panicked) : panicked = .counterOverflow ∧ b.Overflows r s := by
  have inside := (periods_le later).trans boosted
  have near := (nextBoost_ahead later inside).2.2
  refine enter_fails coherent (fun _ => raisable later inside) (by omega) ?_ failed
  intro raised i chosen lifted picked on
  obtain ⟨tasks, current, ready, -⟩ := raise_view lifted
  have live : (s.tasks i).state ≠ .done ∧ (chosen.tasks i).slice = (b.risen r s i).slice := by
    rcases dispatch_some picked with ⟨held, rfl⟩ | ⟨-, line, taken, -, -, rfl⟩
    · rw [current] at held
      rw [(coherent.running i).mp held, tasks]
      simp
    · have waiting := taken.mem
      rw [ready, coherent.queued] at waiting
      simp [waiting, Loop.setTask, started, tasks]
  have bound := (risen_sliced (b := b) (r := r) (sliced on) live.1).2
  rw [← live.2] at bound
  have small : available r chosen (chosen.tasks i) ≤ 4 * T := available_le bound
  unfold armedDeadline
  rw [if_pos on]
  omega

/-- So it gets there when no counter is at its end. -/
theorem enter_runs (coherent : Coherent b s) (sliced : b.mlfq = true → s.Sliced)
    (later : b.base ≤ r.boosted) (boosted : r.boosted + 20 * T ≤ usizeMax)
    (quantum : r.quantum + 20 * T ≤ usizeMax) (armed : r.armed + 20 * T ≤ usizeMax)
    (calm : ¬ b.Overflows r s) : ∃ next, b.enter r s = .ok next := by
  cases ran : b.enter r s with
  | ok next => exact ⟨next, rfl⟩
  | error cause => exact absurd (enter_counts coherent sliced later boosted quantum armed ran).2 calm

theorem charge_runs (forward : r.entered ≤ time) (t : Task) :
    b.charge r time t = .ok (b.charged (time - r.entered) t) := by
  unfold charge charged
  split
  · rw [checkedSub_ok.mpr ⟨forward, rfl⟩]
    rfl
  · rfl

/-- The panics of `match event.reason` that are about the task, not the clock. -/
def OfTask (cause : Panic) : Prop := cause = .taskFailure ∨ cause = .taskFault

/-- A trap with which a task may fail: an exit other than 0, or a fault. -/
def Failing (reason : Reason) : Prop := (∃ code ≠ 0, reason = .exit code) ∨ ∃ cause, reason = .fault cause

theorem answer_fails {t : Task} (known : i.val < b.specs.length) (room : r.limit + T ≤ usizeMax)
    (failed : b.answer r i s t = .error panicked) :
    OfTask panicked ∧ Failing s.exchange.reason := by
  unfold answer at failed
  split at failed
  · rename_i code reason
    split at failed
    · cases failed
    · rename_i nonzero
      cases failed
      exact ⟨.inl rfl, .inl ⟨code, nonzero, reason⟩⟩
  · rename_i fault reason
    rw [List.getElem?_eq_getElem known] at failed
    dsimp only at failed
    split at failed
    · cases failed
    · cases failed
      exact ⟨.inr rfl, .inr ⟨fault, reason⟩⟩
  · cases failed
  · dsimp only at failed
    split at failed
    · split at failed
      · cases failed
      · rw [after_ok.mpr ⟨by decide, room, rfl⟩] at failed
        cases failed
    · cases failed
  · cases failed

theorem demote_runs {t : Task} (low : t.level ≤ 2) (requeue : Bool) :
    ∃ next, demote t requeue = .ok next := by
  unfold demote
  split
  · rename_i due
    have next : { t with level := t.level + 1, demotions := t.demotions + 1 }.level ≤ 2 := due.1
    rw [budget_ok.mpr ⟨next, rfl⟩]
    exact ⟨_, rfl⟩
  · split
    · rw [slice_ok.mpr ⟨low, rfl⟩]
      exact ⟨_, rfl⟩
    · exact ⟨_, rfl⟩

theorem account_runs {t : Task} (low : b.mlfq = true → t.level ≤ 2) (requeue : Bool) :
    ∃ next, b.account s t requeue = .ok next := by
  unfold account
  split
  · rename_i due
    obtain ⟨next, ran⟩ := demote_runs (low due.2) requeue
    rw [ran]
    exact ⟨_, rfl⟩
  · split
    · exact ⟨_, rfl⟩
    · exact ⟨_, rfl⟩

/-- From the return of `run_task` to the next loop head only the task itself
can be at fault, or the counter of the events that the record has no room for. -/
theorem settle_fails (coherent : Coherent b e) (held : e.current = some i)
    (low : b.mlfq = true → (e.tasks i).level ≤ 2) (forward : r.entered ≤ e.exchange.time)
    (room : r.limit + T ≤ usizeMax) (failed : b.settle r i e = .error panicked) :
    (OfTask panicked ∧ Failing e.exchange.reason) ∨
      (panicked = .counterOverflow ∧ ¬ b.profile.Fits e.dropped) := by
  have running := (coherent.running i).mp held
  have known : i.val < b.specs.length := by
    rcases b.task_or_spare i with ⟨n, rfl⟩ | spare
    · exact n.isLt
    · rw [coherent.spare i spare] at running
      cases running
  unfold settle at failed
  rcases bind_error.mp failed with unpaid | ⟨t₀, paid, failed⟩
  · rw [charge_runs forward] at unpaid
    cases unpaid
  rw [charge_runs forward] at paid
  cases paid
  rcases bind_error.mp failed with unanswered | ⟨⟨s₁, t₁, flag⟩, answered, failed⟩
  · exact .inl (answer_fails known room unanswered)
  obtain ⟨same, -⟩ := answered_task (answer_ok answered)
  have level : b.mlfq = true → t₁.level ≤ 2 := by
    intro on
    rw [same.level]
    obtain ⟨_, _, kept⟩ := charged_eq b (e.exchange.time - r.entered)
      { e.tasks i with frame := e.exchange.frame }
    rw [kept]
    exact low on
  obtain ⟨⟨t₂, requeue⟩, accounted⟩ := account_runs (s := s₁) level flag
  rcases bind_error.mp failed with unaccounted | ⟨⟨t₃, again⟩, -, failed⟩
  · rw [accounted] at unaccounted
    cases unaccounted
  obtain ⟨_, _, _, _, _, rfl⟩ := answered_loop (answer_ok answered)
  rcases bind_error.mp failed with unstored | ⟨s₂, stored, failed⟩
  · have unqueued : i ∉ e.ready.contents := by
      rw [coherent.queued i, running]
      simp
    obtain ⟨ready, pushed⟩ := Ready.push_succeeds coherent.distinct unqueued
    unfold store at unstored
    dsimp only at unstored
    rw [pushed] at unstored
    split at unstored <;> cases unstored
  · obtain ⟨rfl, -, full⟩ := Loop.record_error failed
    have same : s₂.dropped = e.dropped := by
      rcases store_ok stored with ⟨-, rfl⟩ | ⟨-, -, _, -, rfl⟩
      · rfl
      · rfl
    exact .inr ⟨rfl, same ▸ full⟩

theorem entered_low (coherent : Coherent b s) (entered : b.Entered r s i e) (sliced : s.Sliced) :
    (e.tasks i).level ≤ 2 := by
  rcases entered.choice with ⟨held, tasks, -⟩ | ⟨-, taken, tasks, -⟩
  · rw [tasks]
    exact (risen_sliced sliced (by simp [(coherent.running i).mp held])).1
  · rw [tasks, Function.update_self]
    exact (risen_sliced sliced (by simp [(coherent.queued i).mp taken.mem])).1

/-! ### Times of first runs and completions -/

/-- First dispatches and completions lie between `base` and the clock. -/
structure Timed (b : Batch) (h : Head) : Prop where
  base : b.base ≤ h.clock
  first : ∀ j first, (h.loop.tasks j).first = some first → b.base ≤ first ∧ first ≤ h.clock
  done : ∀ j : TaskId, j.val < b.specs.length → (h.loop.tasks j).state = .done →
    ∃ first, (h.loop.tasks j).first = some first ∧ first ≤ (h.loop.tasks j).completion

theorem start_timed (started : b.start = .ok s) : b.Timed ⟨s, b.base⟩ := by
  obtain ⟨s', ran, -, made, left, -⟩ := start_spec (start_bounded started)
  rw [started] at ran
  cases ran
  refine ⟨Nat.le_refl _, ?_, ?_⟩
  · intro j first met
    rcases b.task_or_spare j with ⟨n, rfl⟩ | spare
    · simp [made, created, blankTask] at met
    · simp [left j spare, blankTask] at met
  · intro j known stopped
    rcases b.task_or_spare j with ⟨n, rfl⟩ | spare
    · simp [made, created] at stopped
    · exact absurd known (Nat.not_lt.mpr spare)

theorem step_timed (coherent : Coherent b h.loop) (timed : b.Timed h) (step : b.Step h p h') :
    b.Timed h' := by
  have passed := step_view coherent step
  obtain ⟨-, clock, -, -, rfl⟩ := step
  unfold Readings.Nondecreasing at clock
  obtain ⟨t, settled⟩ := passed.settled
  have first (j : TaskId) : (p.after.tasks j).first = (p.entry.tasks j).first := by
    by_cases same : j = p.task
    · subst same
      rw [settled.tasks, Function.update_self, settled.first]
      rfl
    · rw [settled.tasks, Function.update_of_ne same]
      rfl
  have entry (j : TaskId) : (p.entry.tasks j).first = (h.loop.tasks j).first ∨
      ((h.loop.tasks j).first = none ∧ (p.entry.tasks j).first = some p.readings.dispatched) := by
    have kept := (b.risen_state p.readings h.loop j).2
    rcases passed.entered.choice with ⟨-, tasks, -⟩ | ⟨-, -, tasks, -⟩
    · rw [tasks, kept]
      exact .inl rfl
    · by_cases same : j = p.task
      · subst same
        rw [tasks, Function.update_self]
        cases before : (h.loop.tasks p.task).first with
        | none => exact .inr ⟨rfl, by simp [started, kept, before]⟩
        | some met => exact .inl (by simp [started, kept, before])
      · rw [tasks, Function.update_of_ne same, kept]
        exact .inl rfl
  have between (j : TaskId) (met : Nat) (known : (p.entry.tasks j).first = some met) :
      b.base ≤ met ∧ met ≤ p.event.time := by
    have start := timed.base
    rcases entry j with same | ⟨-, fresh⟩
    · rw [same] at known
      have bounds := timed.first j met known
      omega
    · rw [fresh] at known
      cases known
      omega
  refine ⟨?_, ?_, ?_⟩
  · have start := timed.base
    dsimp only
    omega
  · intro j met known
    dsimp only at known ⊢
    rw [first] at known
    have bounds := between j met known
    omega
  · intro j inside stopped
    dsimp only at stopped ⊢
    rw [first]
    by_cases same : j = p.task
    · subst same
      have self : p.after.tasks p.task = t := by rw [settled.tasks, Function.update_self]
      have running : (p.entry.tasks p.task).state = .running :=
        (passed.entry.running p.task).mp passed.entered.current
      rw [self] at stopped ⊢
      cases met : (p.entry.tasks p.task).first with
      | none => exact absurd met (passed.entry.met p.task inside (by simp [running]))
      | some met' =>
        refine ⟨met', rfl, ?_⟩
        cases settled.fate with
        | ended _ _ stamp =>
          rw [stamp]
          exact (between p.task met' met).2
        | requeued state => simp [state] at stopped
        | kept state =>
          rw [state] at stopped
          change (p.entry.tasks p.task).state = .done at stopped
          rw [running] at stopped
          cases stopped
    · obtain ⟨after, before⟩ := passed.other same
      rw [after, (b.risen_state p.readings h.loop j).1] at stopped
      obtain ⟨met, known, earlier⟩ := timed.done j inside stopped
      rw [after, before, risen_done stopped]
      exact ⟨met, known, earlier⟩

theorem reaches_timed (reached : b.Reaches passes h) : b.Timed h := by
  obtain ⟨s, started, run⟩ := reached
  have coherent := start_coherent started
  induction run with
  | nil => exact start_timed started
  | snoc earlier last ih => exact step_timed (run_coherent coherent earlier) ih last

/-- What the report may still find wrong is about the tasks, not the clock. -/
theorem report_fails (timed : b.Timed h)
    (stopped : ∀ i : Fin b.specs.length, (h.loop.tasks (b.task i)).state = .done)
    (failed : b.report h.loop = .error cause) : cause = .timerCount ∨ cause = .escaped := by
  have turn (i : Fin b.specs.length) (wrong : b.reportTask h.loop i = .error cause) :
      cause = .timerCount ∨ cause = .escaped := by
    obtain ⟨met, known, earlier⟩ := timed.done (b.task i) i.isLt (stopped i)
    have start := (timed.first (b.task i) met known).1
    unfold reportTask at wrong
    rw [if_neg (by simp [stopped i])] at wrong
    split at wrong
    · cases wrong
      exact .inl rfl
    · split at wrong
      · cases wrong
        exact .inr rfl
      · rw [known] at wrong
        dsimp only at wrong
        rw [Profile.sub_ok.mpr ⟨fun _ => start, rfl⟩, Profile.sub_ok.mpr ⟨fun _ => start.trans earlier, rfl⟩] at wrong
        cases wrong
  unfold report at failed
  generalize List.finRange b.specs.length = todo at failed
  induction todo with
  | nil => cases failed
  | cons i todo ih =>
    rw [List.mapM_cons] at failed
    rcases bind_error.mp failed with now | ⟨_, -, failed⟩
    · exact turn i now
    · rcases bind_error.mp failed with later | ⟨_, -, failed⟩
      · exact ih later
      · cases failed

/-- The time arithmetic of the scheduler never panics, whatever the policy and
the traps, as long as the clock never runs backwards and stays below
`usize::MAX - 20 * T`: besides a task that fails, only an `i32` counter of the
report can stop the loop, which is at its end then, in a build that checks. Each
boost deadline lies ahead on the grid from `base`, and each finished task ran
first after `base` and ended after that. -/
theorem time_arithmetic (b : Batch) (room : b.base ≤ usizeMax - 20 * T) :
    (∃ s, b.start = .ok s) ∧ ∀ passes h, b.Reaches passes h →
      (∀ r trap, r.Nondecreasing h.clock trap → r.requeued ≤ usizeMax - 20 * T →
        (∀ panicked, b.enter r h.loop = .error panicked → panicked = .counterOverflow ∧ b.Overflows r h.loop) ∧
        ∀ i e event panicked, b.enter r h.loop = .ok (some (i, e)) → event.time = trap →
          b.settle r i (e.trapped i event) = .error panicked →
            OfTask panicked ∨ (panicked = .counterOverflow ∧ ¬ b.profile.Fits h.loop.dropped)) ∧
      (∀ p h', b.Step h p h' → b.Boosts p →
        (b.profile = .dev ∨ p.readings.boosted ≤ usizeMax - 20 * T) → p.entry.boost ≡ b.base [MOD 20 * T] ∧
          p.readings.boosted < p.entry.boost ∧ p.entry.boost ≤ p.readings.boosted + 20 * T) ∧
      (∀ i : Fin b.specs.length, (h.loop.tasks (b.task i)).state = .done →
        ∃ first, (h.loop.tasks (b.task i)).first = some first ∧ b.base ≤ first ∧
          first ≤ (h.loop.tasks (b.task i)).completion) ∧
      ∀ r cause, b.enter r h.loop = .ok none → b.report h.loop = .error cause →
        cause = .timerCount ∨ cause = .escaped := by
  have small : 20 * T ≤ usizeMax := by decide
  have begins : b.base + 20 * T ≤ usizeMax := by omega
  refine ⟨⟨_, (start_spec begins).choose_spec.1⟩, fun passes h reached => ?_⟩
  have coherent := reaches_coherent reached
  have timed := reaches_timed reached
  have sliced (on : b.mlfq = true) : h.loop.Sliced := reaches_sliced on reached
  refine ⟨fun r trap clock bound => ?_, fun p h' step due profile => ?_, fun i stopped => ?_,
    fun r cause stops failed => ?_⟩
  · have start := timed.base
    unfold Readings.Nondecreasing at clock
    refine ⟨fun _ failed => enter_counts coherent sliced (by omega) (by omega) (by omega) (by omega) failed, ?_⟩
    intro i e event panicked entered time failed
    have view := enter_view entered
    have entry := entered_coherent coherent view
    have low (on : b.mlfq = true) : (e.tasks i).level ≤ 2 := entered_low coherent view (sliced on)
    rw [← view.dropped]
    refine (settle_fails (trapped_coherent entry event) view.current ?_ ?_ ?_ failed).imp_left And.left
    · exact low
    · change r.entered ≤ event.time
      omega
    · have quantum : T ≤ 20 * T := by decide
      omega
  · have passed := step_view coherent step
    have start := timed.base
    obtain ⟨before, clock, entered, -⟩ := step
    unfold Readings.Nondecreasing at clock
    rw [before] at entered
    have due' : b.BoostDue p.readings h.loop := before ▸ due
    have later : b.base ≤ p.readings.boosted := by omega
    rw [passed.entered.boost, if_pos due']
    refine nextBoost_ahead later ?_
    rcases profile with checks | early
    · obtain ⟨_, _, lifted, -⟩ := enter_some entered
      rcases raise_ok lifted with ⟨calm, -⟩ | ⟨-, raises, bounded, -⟩
      · exact absurd due' calm
      · exact (raises.room checks bounded).2
    · exact (periods_le later).trans (by omega)
  · obtain ⟨met, known, earlier⟩ := timed.done (b.task i) i.isLt stopped
    exact ⟨met, known, (timed.first _ _ known).1, earlier⟩
  · exact report_fails timed (fun i => break_done coherent stops (b.task i)) failed

end Batch

theorem time_arithmetic_rehearsal : ∃ passes h, (rehearsal .mlfq).Reaches passes h ∧
    (∃ s, (rehearsal .mlfq).start = .ok s) ∧
    ∀ r trap, r.Nondecreasing h.clock trap → r.requeued ≤ usizeMax - 20 * T →
      ∃ next, (rehearsal .mlfq).enter r h.loop = .ok next := by
  have plays : ((rehearsal .mlfq).play (rehearsed 0)).map (fun run =>
      (decide ((rehearsal .mlfq).profile.Fits run.2.loop.switches),
        decide ((rehearsal .mlfq).profile.Fits run.2.loop.boosts))) = some (true, true) := by decide +kernel
  obtain ⟨⟨passes, h⟩, played, fits⟩ := Option.map_eq_some_iff.mp plays
  simp only [Prod.mk.injEq, decide_eq_true_eq] at fits
  have reached := Batch.play_reaches played
  have room : (rehearsal .mlfq).base ≤ usizeMax - 20 * T := Nat.zero_le _
  obtain ⟨starts, runs⟩ := Batch.time_arithmetic (rehearsal .mlfq) room
  refine ⟨passes, h, reached, starts, fun r trap clock bound => ?_⟩
  cases ran : (rehearsal .mlfq).enter r h.loop with
  | ok next => exact ⟨next, rfl⟩
  | error cause =>
    rcases (((runs passes h reached).1 r trap clock bound).1 cause ran).2 with ⟨-, full⟩ | ⟨-, -, full⟩
    · exact absurd fits.2 full
    · exact absurd fits.1 full

end Neonos.Scheduler
