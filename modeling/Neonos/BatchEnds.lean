import Neonos.BatchSafety
import Neonos.Inevitable

/-! A batch of the user program comes to its end, as long as every timer
interrupt lets its task get on by an instruction: each task has a fixed number
of steps ahead of it, and every turn takes at least one of them. In a build that
checks its counters this asks for fewer than `2 ^ 31` turns. -/
namespace Neonos.UserScheduler
open Rv64.Reg Rv64User ByteMemory Scheduler Runs

variable {p : Placement} {elsewhere : Machine Memory} {b : Batch} {memories : TaskId → Memory} {turns : List Turn}
  {s : System Memory} {r : Readings} {i : TaskId} {e : Loop}

/-! ### What a task has ahead of it -/

theorem alone_run {machine : Machine Memory} (run : Run (Alone machine) u events v) :
    ∃ pcs, pcs.length = events.length ∧ Run (Proceeds machine supervisor) u pcs v := by
  induction run with
  | nil => exact ⟨[], rfl, .nil⟩
  | @snoc events w e v _ last ih =>
    obtain ⟨pcs, same, before⟩ := ih
    have here : Resumed w w := ⟨rfl, rfl, rfl⟩
    cases last with
    | next step => exact ⟨_, by simp [same], .snoc before (.next here step)⟩
    | call ecall returns => exact ⟨_, by simp [same], .snoc before (.call here ecall returns ⟨rfl, rfl, rfl⟩)⟩

theorem Begins.stays {spec : Spec} (begins : Begins p spec u) (fault : spec.fault = true) :
    Finishes (p.machine elsewhere) u := by
  have pc := begins.pc
  rw [fault, if_pos rfl] at pc
  exact .inr (machine_fault p elsewhere pc)

/-- More steps than a task takes alone. -/
def ownSteps (spec : Spec) : Nat := if spec.fault then 1 else spec.iterations * turnSteps spec.mode + 12

/-- More turns than a batch of these tasks takes, its end with them. -/
def work (specs : List Spec) : Nat := (specs.map ownSteps).sum + 1

/-- The steps of a task alone are bounded. -/
theorem Begins.bounded {spec : Spec} (begins : Begins p spec u) (runnable : Runnable spec)
    (run : Run (Alone (p.machine elsewhere)) u events v) : events.length < ownSteps spec := by
  obtain ⟨modes, iterations⟩ := runnable
  cases fault : spec.fault with
  | false =>
    obtain ⟨positive, fits⟩ := iterations fault
    have pc := begins.pc
    rw [fault, if_neg Bool.false_ne_true] at pc
    obtain ⟨whole, -, -, length, follows⟩ :=
      runs_on p elsewhere (supervisor_kept begins.ascii) positive fits modes pc begins.limit begins.kind
    obtain ⟨pcs, same, proceeds⟩ := alone_run run
    obtain ⟨before, rest, rfl, rfl, -⟩ := follows pcs v proceeds
    rw [List.length_map] at same
    rw [List.length_append] at length
    unfold ownSteps
    rw [fault, if_neg Bool.false_ne_true]
    omega
  | true =>
    cases events with
    | nil =>
      unfold ownSteps
      rw [fault, if_pos rfl]
      exact Nat.one_pos
    | cons e events =>
      obtain ⟨w, first, -⟩ := run.uncons
      exact absurd first (finishes_stuck (begins.stays fault) e w)

theorem finishes_over {machine : Machine Memory} (finishes : Finishes machine v) : ¬ GoesOn machine supervisor v := by
  intro on
  rcases on with ⟨w, next⟩ | ⟨ecall, result, answered⟩
  · rcases finishes with ⟨trap, -⟩ | trap
    · exact absurd (next.symm.trans trap) (by simp)
    · exact absurd (next.symm.trans trap) (by simp)
  · rcases finishes with ⟨-, silent⟩ | trap
    · rw [supervisor_reply, answered] at silent
      cases silent
    · rw [ecall] at trap
      exact absurd (Outcome.trap.inj trap) (by decide)

/-- A task that has come to its end has been through its loop as often as its spec says. -/
theorem Begins.served {spec : Spec} (begins : Begins p spec u) (runnable : Runnable spec) (sound : spec.fault = false)
    (solo : Solo (p.machine elsewhere) u calls v) (finishes : Finishes (p.machine elsewhere) v) :
    ∃ pcs, Run (Proceeds (p.machine elsewhere) supervisor) u pcs v ∧
      pcs.count (p.at_ .sched_loop) = spec.iterations := by
  obtain ⟨modes, iterations⟩ := runnable
  obtain ⟨positive, fits⟩ := iterations sound
  have pc := begins.pc
  rw [sound, if_neg Bool.false_ne_true] at pc
  obtain ⟨whole, inside, rounds, -, follows⟩ :=
    runs_on p elsewhere (supervisor_kept begins.ascii) positive fits modes pc begins.limit begins.kind
  obtain ⟨pcs, run⟩ := solo_run solo
  obtain ⟨before, rest, split, rfl, -, more, -⟩ := follows pcs v run
  have short : listing.place .sched_timer_wait < listing.code.length := by decide
  have over_ : rest = [] := by
    by_contra ahead
    exact finishes_over finishes (more ahead)
  subst over_
  rw [List.append_nil] at split
  subst split
  refine ⟨_, run, ?_⟩
  rw [← rounds]
  exact p.count_map (fun k member => (inside k member).trans short) (by decide)

/-! ### What a turn takes of it -/

theorem computes_run {machine : Machine Memory} (ran : Computes machine u v) : ∃ events, Run (Alone machine) u events v := by
  induction ran with
  | refl => exact ⟨[], .nil⟩
  | tail _ step ih =>
    obtain ⟨events, before⟩ := ih
    exact ⟨events ++ [none], .snoc before (.next step)⟩

/-- A turn that lets its task get on takes the task's own run at least one step
further, unless it ends it. -/
theorem gets_further {machine : Machine Memory} (raised : GettingOn machine u v raw)
    (rewritten : Rewritten raw reason frame) :
    (∃ events, 0 < events.length ∧ Run (Alone machine) u events (.load frame v.stack)) ∨
      (∃ code, reason = .exit code) ∨ reason = .fault 2 := by
  have further := continues raised.trapped rewritten
  cases rewritten with
  | timer interrupt =>
    obtain ⟨w, step, ran⟩ := raised.first interrupt
    obtain ⟨events, run⟩ := computes_run ran
    have back : User.load { raw with sstatus := userStatus raw.sstatus } v.stack = v := by
      cases raised.trapped with
      | timer => exact v.load_save _ _ _ _
      | exception => exact absurd interrupt (exception_cause _).1
    rw [back]
    exact .inl ⟨none :: events, by simp, run.cons (.next step)⟩
  | yield | syscall =>
    generalize User.load _ v.stack = w at further
    cases further with
    | call ran ecall returns =>
      obtain ⟨events, run⟩ := computes_run ran
      exact .inl ⟨events ++ [_], by simp, .snoc run (.call ecall returns)⟩
    | finish _ _ ended => simp at ended
  | exit => exact .inr (.inl ⟨_, rfl⟩)
  | fault => exact .inr (.inr rfl)

theorem settle_done {l next : Loop} (ended : (∃ code, l.exchange.reason = .exit code) ∨ l.exchange.reason = .fault 2)
    (settled : b.settle r i l = .ok next) : (next.tasks i).state = .done := by
  obtain ⟨s₁, t₁, flag, t₂, requeue, s₂, -, answered, accounted, stored, kept⟩ := Batch.settle_ok settled
  obtain ⟨-, rfl⟩ := Loop.record_ok.mp kept
  have stopped : t₁.state = .done ∧ flag = false := by
    cases answered with
    | ended => exact ⟨rfl, rfl⟩
    | yielded how | preempted how | spent how | rearmed how | called how => simp [how] at ended
  obtain ⟨stopped, rfl⟩ := stopped
  cases accounted with
  | ended =>
    rcases Batch.store_ok stored with ⟨-, rfl⟩ | ⟨again, -⟩
    · simp [Loop.setTask, stopped]
    · cases again
  | demoted live | refilled live | inside live | expired live | kept live => exact absurd stopped live

/-- Each task that is not Done is so many steps into its own run. -/
def Spent (p : Placement) (elsewhere : Machine Memory) (b : Batch) (memories : TaskId → Memory) (s : System Memory)
    (spent : TaskId → Nat) : Prop :=
  ∀ j : Fin b.specs.length, (s.head.loop.tasks (b.task j)).state ≠ .done → ∃ events,
    events.length = spent (b.task j) ∧ Run (Alone (p.machine elsewhere)) (.load (b.firstFrame j) (memories (b.task j)))
      events (.load (s.head.loop.tasks (b.task j)).frame (s.memories (b.task j)))

/-- What is left of a task at most. -/
def left (b : Batch) (spent : TaskId → Nat) (s : System Memory) (j : Fin b.specs.length) : Nat :=
  if (s.head.loop.tasks (b.task j)).state = .done then 0 else ownSteps (b.specs.get j) - spent (b.task j)

section turn
variable (underway : Underway p elsewhere b memories turns s) (ticks : r.Ticks s.head.clock time)
  (entered : b.enter r s.head.loop = .ok (some (i, e)))
  (raised : GettingOn (p.machine elsewhere) (.load (e.slots i) (s.memories i)) v raw)
  (handled : handle b.image time e.exchange.expected (b.image.framePtr i) raw = .ok event)
  (settled : b.settle r i (e.trapped i event) = .ok next)
include underway ticks entered raised handled settled

/-- The task of a turn is further into its own run behind it, or Done. -/
theorem turn_spends (spent : Spent p elsewhere b memories s steps) :
    ∃ more, 0 < more ∧ Spent p elsewhere b memories ⟨⟨next, r.requeued⟩, Function.update s.memories i v.stack⟩
      (Function.update steps i (steps i + more)) := by
  have coherent := Batch.reaches_coherent (Batch.executes_reaches underway.run)
  have passed := Batch.step_view coherent (underway.step ticks entered raised.toFromUser handled settled)
  obtain ⟨slot, frame, others⟩ := passed.frames
  have other (j : Fin b.specs.length) (apart : b.task j ≠ i) (more : Nat)
      (live : (next.tasks (b.task j)).state ≠ .done) : ∃ events,
      events.length = Function.update steps i (steps i + more) (b.task j) ∧
      Run (Alone (p.machine elsewhere)) (.load (b.firstFrame j) (memories (b.task j))) events
        (.load (next.tasks (b.task j)).frame (Function.update s.memories i v.stack (b.task j))) := by
    obtain ⟨frame, state⟩ := others (b.task j) apart
    change (next.tasks (b.task j)).frame = _ at frame
    change (next.tasks (b.task j)).state = _ at state
    rw [state] at live
    rw [frame, Function.update_of_ne apart, Function.update_of_ne apart]
    exact spent j live
  obtain ⟨rewritten, -, -⟩ := handle_ok handled
  rcases gets_further raised rewritten with ⟨further, positive, run⟩ | ended
  · refine ⟨further.length, positive, fun j live => ?_⟩
    by_cases mine : b.task j = i
    · subst mine
      have before := passed.live coherent
      obtain ⟨events, length, own⟩ := spent j before
      change (next.tasks (b.task j)).frame = event.frame at frame
      change e.slots (b.task j) = (s.head.loop.tasks (b.task j)).frame at slot
      rw [slot] at run
      refine ⟨events ++ further, ?_, ?_⟩
      · rw [List.length_append, Function.update_self, length]
      · change Run _ _ _ (User.load (next.tasks (b.task j)).frame (Function.update s.memories (b.task j) v.stack (b.task j)))
        rw [frame, Function.update_self]
        exact own.append run
    · exact other j mine further.length live
  · refine ⟨1, Nat.one_pos, fun j live => ?_⟩
    by_cases mine : b.task j = i
    · subst mine
      exact absurd (settle_done ended settled) live
    · exact other j mine 1 live

end turn

/-- Every turn leaves less of what all tasks have ahead of them. -/
theorem left_decreases {spent : TaskId → Nat} {s t : System Memory} {i : Fin b.specs.length}
    (live : (s.head.loop.tasks (b.task i)).state ≠ .done) (before : spent (b.task i) < ownSteps (b.specs.get i))
    (more : 0 < further)
    (others : ∀ j, j ≠ b.task i → (t.head.loop.tasks j).state = (s.head.loop.tasks j).state) :
    ∑ j, left b (Function.update spent (b.task i) (spent (b.task i) + further)) t j < ∑ j, left b spent s j := by
  refine Finset.sum_lt_sum (fun j _ => ?_) ⟨i, Finset.mem_univ i, ?_⟩
  · by_cases mine : j = i
    · subst mine
      unfold left
      rw [if_neg live, Function.update_self]
      split <;> omega
    · have other : b.task j ≠ b.task i := fun same => mine (b.task_injective same)
      unfold left
      rw [others (b.task j) other, Function.update_of_ne other]
  · unfold left
    rw [if_neg live, Function.update_self]
    split <;> omega

/-! ### The end -/

/-- A hart can always take a trap that lets its task get on. -/
theorem getting_on_exists (machine : Machine Memory) (u : User Memory) : ∃ v raw, GettingOn machine u v raw := by
  have user : (0 : Word) &&& SSTATUS_SPP = 0 := by decide
  cases step : machine u with
  | next v =>
    exact ⟨v, v.save 0 TIMER_INTERRUPT 0, ⟨.timer (.single step), user⟩, fun _ => ⟨v, step, .refl⟩⟩
  | trap cause =>
    refine ⟨u, u.save 0 (exceptionCause cause) 0, ⟨.exception .refl step, user⟩, fun timer => ?_⟩
    exact absurd timer (exception_cause cause).1

/-- The clock may stand still. -/
theorem Underway.still (underway : Underway p elsewhere b memories turns s) :
    (Readings.instant s.head.clock s.head.clock).Ticks s.head.clock s.head.clock := by
  refine ⟨?_, underway.clock⟩
  simp [Readings.Nondecreasing, Readings.instant]

theorem Underway.can_go (underway : Underway p elsewhere b memories turns s) :
    ∃ status, b.Goes (fun _ => p.machine elsewhere) GettingOn (.going s) status := by
  have ticks := underway.still
  rcases entered : b.enter _ s.head.loop with cause | _ | ⟨i, e⟩
  · exact ⟨_, .enters ticks entered⟩
  · exact ⟨_, .breaks ticks entered⟩
  · obtain ⟨v, raw, raised⟩ := getting_on_exists (p.machine elsewhere) (.load (e.slots i) (s.memories i))
    obtain ⟨event, handled, -⟩ := underway.goes ticks entered raised.toFromUser
    cases settled : b.settle _ i (e.trapped i event) with
    | error cause => exact ⟨_, .settles ticks entered raised handled settled⟩
    | ok next => exact ⟨_, .turns ticks entered raised handled settled⟩

/-- A batch that has stopped: every task is Done, those of the program proper
have been through their loops as often as their specs say, and the report can
only miss a demotion. -/
structure Served (p : Placement) (elsewhere : Machine Memory) (b : Batch) (memories : TaskId → Memory)
    (s : System Memory) : Prop where
  done : ∀ i, (s.head.loop.tasks i).state = .done
  rounds : ∀ j : Fin b.specs.length, (b.specs.get j).fault = false → ∃ pcs,
    Run (Proceeds (p.machine elsewhere) supervisor) (.load (b.firstFrame j) (memories (b.task j))) pcs
      (.load (s.head.loop.tasks (b.task j)).frame (s.memories (b.task j))) ∧
    pcs.count (p.at_ .sched_loop) = (b.specs.get j).iterations
  report : ∀ cause, b.report s.head.loop = .error cause → cause = .escaped

theorem Underway.served (underway : Underway p elsewhere b memories turns s)
    (done : ∀ i, (s.head.loop.tasks i).state = .done) : Served p elsewhere b memories s := by
  refine ⟨done, fun j sound => ?_, fun cause failed => underway.reports done failed⟩
  have isolated := (Batch.executes_isolated underway.run j).2
  exact (underway.hosts.begins j (memories (b.task j))).served (underway.hosts.runnable _ (List.get_mem b.specs j)) sound
    isolated.solo (isolated.stopped (done _))

/-- Where the batch ends: with its tasks served, or at a counter that is too
short for its turns. -/
def Ended (p : Placement) (elsewhere : Machine Memory) (b : Batch) (memories : TaskId → Memory) :
    Status (System Memory) → Prop
  | .going _ => False
  | .stopped s => Served p elsewhere b memories s
  | .panicked cause => Overflow b (work b.specs) cause

theorem Underway.ends (ahead : Nat) (underway : Underway p elsewhere b memories turns s)
    (spent : Spent p elsewhere b memories s used) (measure_ : ∑ j, left b used s j = ahead)
    (enough : turns.length + ahead + 1 ≤ work b.specs) :
    Inevitably (b.Goes (fun _ => p.machine elsewhere) GettingOn) (Ended p elsewhere b memories) (.going s) := by
  induction ahead using Nat.strong_induction_on generalizing turns s used with
  | _ ahead ih =>
    subst measure_
    obtain ⟨status, goes⟩ := underway.can_go
    refine .later goes fun status step => ?_
    cases step with
    | enters ticks panics => exact .now ((underway.enters ticks panics).mono (by omega))
    | breaks ticks breaks => exact .now (underway.served (underway.stops breaks))
    | handles ticks entered raised panics =>
      obtain ⟨event, handled, -⟩ := underway.goes ticks entered raised.toFromUser
      cases panics.symm.trans handled
    | settles ticks entered raised handled panics =>
      obtain ⟨event, handled', -, counts⟩ := underway.goes ticks entered raised.toFromUser
      cases handled.symm.trans handled'
      exact .now ((counts _ panics).mono (by omega))
    | @turns r i e v raw _ event next _ ticks entered raised handled settled =>
      have coherent := Batch.reaches_coherent (Batch.executes_reaches underway.run)
      have passed := Batch.step_view coherent (underway.step ticks entered raised.toFromUser handled settled)
      obtain ⟨more, positive, spent'⟩ := turn_spends underway ticks entered raised handled settled spent
      obtain ⟨j, rfl, -⟩ := underway.enters_task entered
      have live := passed.live coherent
      obtain ⟨events, length, run⟩ := spent j live
      have within := (underway.hosts.begins j _).bounded (underway.hosts.runnable _ (List.get_mem b.specs j)) run
      rw [length] at within
      have turned := underway.next_turn ticks entered raised.toFromUser handled settled
      have less := left_decreases (t := ⟨⟨next, r.requeued⟩, Function.update s.memories (b.task j) v.stack⟩) live
        within positive fun k apart => (passed.frames.2.2 k apart).2
      refine ih _ less turned spent' rfl ?_
      rw [List.length_append, List.length_singleton]
      omega

/-- From the first loop head the batch comes to its end, as long as every timer
interrupt lets its task get on. -/
theorem Underway.comes_to_end (underway : Underway p elsewhere b memories [] ⟨⟨first, b.base⟩, memories⟩) :
    Inevitably (b.Goes (fun _ => p.machine elsewhere) GettingOn) (Ended p elsewhere b memories)
      (.going ⟨⟨first, b.base⟩, memories⟩) := by
  have spent : Spent p elsewhere b memories ⟨⟨first, b.base⟩, memories⟩ fun _ => 0 := by
    intro j _
    have line := (Batch.executes_isolated underway.run j).2.line
    have frame : (first.tasks (b.task j)).frame = b.firstFrame j := by simpa [own] using line
    refine ⟨[], rfl, ?_⟩
    rw [frame]
    exact .nil
  have all : ∑ j, left b (fun _ => 0) ⟨⟨first, b.base⟩, memories⟩ j ≤ (b.specs.map ownSteps).sum := by
    rw [← Fin.sum_univ_fun_getElem]
    refine Finset.sum_le_sum fun j _ => ?_
    unfold left
    split
    · exact Nat.zero_le _
    · exact Nat.sub_le _ _
  refine underway.ends _ spent rfl ?_
  rw [List.length_nil, Nat.zero_add]
  exact Nat.add_le_add_right all 1

end Neonos.UserScheduler
