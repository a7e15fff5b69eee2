import Mathlib
import Neonos.Model.Scheduler
import Neonos.Runs

/-! The management loop `scheduler.rs::batch`. One pass through the loop is
`Batch.enter` up to the call of `run_task`, the trap that fills the mailbox,
and `Batch.settle` from its return to the next loop head. The clock readings a
pass takes are an input, in the order the source takes them. -/
namespace Neonos.Scheduler

/-- One batch: the profile of its build, its arguments, the linked addresses,
`status()` and the mailbox a previous batch left, and the clock reading `base`. -/
structure Batch where
  profile : Profile
  policy : Policy
  specs : List Spec
  nonempty : specs ≠ []
  fits : specs.length ≤ N
  image : Image
  sstatus : Word
  mailbox : Exchange
  base : Nat

def Batch.mlfq (b : Batch) : Bool := b.policy = .mlfq
def Batch.timed (b : Batch) : Bool := b.policy ≠ .yield

/-- The table slot of the `i`-th spec. -/
def Batch.task (b : Batch) (i : Fin b.specs.length) : TaskId := i.castLE b.fits

/-- The clock readings of one pass, named by their use. `limit` is read after
the trap, when `Policy::Timer` rearms; `requeued` when a task goes back. -/
structure Readings where
  head : Nat
  boosted : Nat
  dispatched : Nat
  quantum : Nat
  untilBoost : Nat
  armed : Nat
  entered : Nat
  limit : Nat
  requeued : Nat

/-- A nondecreasing clock: `last` was read before this pass, `trap` is the
reading of the trap handler. -/
def Readings.Nondecreasing (r : Readings) (last trap : Nat) : Prop :=
  last ≤ r.head ∧ r.head ≤ r.boosted ∧ r.boosted ≤ r.dispatched ∧ r.dispatched ≤ r.quantum ∧
    r.quantum ≤ r.untilBoost ∧ r.untilBoost ≤ r.armed ∧ r.armed ≤ r.entered ∧ r.entered ≤ trap ∧
    trap ≤ r.limit ∧ r.limit ≤ r.requeued

instance (r : Readings) (last trap : Nat) : Decidable (r.Nondecreasing last trap) :=
  inferInstanceAs (Decidable (_ ∧ _ ∧ _ ∧ _ ∧ _ ∧ _ ∧ _ ∧ _ ∧ _ ∧ _))

/-- The locals and statics that live across passes of the loop. `trace` is
`trace[..trace_len]`; `stie` and `timecmp` are the timer as `arm` and `stop`
leave it; `slots` are the frames at the top of the trap stacks. -/
structure Loop where
  tasks : TaskId → Task
  ready : Ready
  current : Option TaskId
  deadline : Nat
  boost : Nat
  switches : Int32
  trace : List (TaskId × Reason)
  dropped : Int32
  boosts : Int32
  stie : Bool
  timecmp : Nat
  timerDone : Nat
  slots : TaskId → TrapFrame
  exchange : Exchange

namespace Loop

def setTask (s : Loop) (i : TaskId) (t : Task) : Loop :=
  { s with tasks := Function.update s.tasks i t }

/-- `timer::arm`. -/
def arm (s : Loop) (deadline : Nat) : Loop := { s with timecmp := deadline, stie := true }

/-- `timer::stop`. -/
def stop (s : Loop) : Loop := { s with timecmp := usizeMax, stie := false }

/-- What `run_task` leaves behind: the handler's mailbox and the frame slot. -/
def trapped (s : Loop) (i : TaskId) (event : Exchange) : Loop :=
  { s with exchange := event, slots := Function.update s.slots i event.frame }

/-- The event record, 64 entries long. -/
def record (s : Loop) (profile : Profile) (i : TaskId) (requeue : Bool) : Except Panic Loop :=
  if s.exchange.reason ≠ .syscall ∨ requeue then
    if s.trace.length < 64 then .ok { s with trace := s.trace ++ [(i, s.exchange.reason)] }
    else do
      let dropped ← profile.bump s.dropped
      .ok { s with dropped }
  else .ok s

end Loop

/-- `[Task { .. }; N]`. -/
def blankTask : Task where
  frame := ZERO_FRAME
  state := .done
  level := 0
  slice := T
  allot := 2 * T
  timers := 0
  yields := 0
  syscalls := 0
  demotions := 0
  preemptions := 0
  first := none
  completion := 0
  readySince := 0
  maxWait := 0

namespace Batch

/-- The frame a task starts from. -/
def firstFrame (b : Batch) (i : Fin b.specs.length) : TrapFrame :=
  let spec := b.specs.get i
  { ((((((ZERO_FRAME.setX 2 (b.image.stackTop (b.task i) true - 16)).setX 8
      (BitVec.ofNat 64 (0x41 + i))).setX 9 (BitVec.ofNat 64 spec.iterations)).setX 20
      (BitVec.ofNat 64 spec.mode))).setX 21 b.image.timerDone) with
    sstatus := b.sstatus &&& ~~~(SSTATUS_SPP ||| SSTATUS_SPIE ||| SSTATUS_SIE)
    sepc := if spec.fault then b.image.schedFault else b.image.schedEntry }

/-- One turn of the loop over `specs`. -/
def create (b : Batch) (s : Loop) (i : Fin b.specs.length) : Except Panic Loop :=
  let t := { s.tasks (b.task i) with frame := b.firstFrame i, state := .ready, readySince := b.base }
  match s.ready.push i with
  | .ok ready => .ok { s.setTask (b.task i) t with ready }
  | .error error => .error (.enqueue error)

/-- The locals before the loop over `specs`. The timer is off from
`timer::stop` when the policy is timed, and was never armed otherwise. -/
def opening (b : Batch) (boost : Nat) : Loop where
  tasks _ := blankTask
  ready := Ready.new
  current := none
  deadline := 0
  boost
  switches := 0
  trace := []
  dropped := 0
  boosts := 0
  stie := false
  timecmp := usizeMax
  timerDone := 0
  slots _ := ZERO_FRAME
  exchange := b.mailbox

/-- `batch` up to its first loop head. -/
def start (b : Batch) : Except Panic Loop := do
  let boost ← checkedAdd b.base (20 * T) .boostOverflow
  (List.finRange b.specs.length).foldlM b.create (b.opening boost)

/-- The boost of one task: Done tasks and table slots past the specs stay. -/
def boostTask (b : Batch) (tasks : TaskId → Task) (i : TaskId) : Except Panic (TaskId → Task) :=
  if i.val < b.specs.length ∧ (tasks i).state ≠ .done then do
    let t ← { tasks i with level := 0 }.budget
    .ok (Function.update tasks i t)
  else .ok tasks

/-- `if mlfq && timer::now() >= boost { .. }`. -/
def raise (b : Batch) (r : Readings) (s : Loop) : Except Panic Loop :=
  if b.mlfq ∧ s.boost ≤ r.head then do
    let tasks ← (List.finRange N).foldlM b.boostTask s.tasks
    let boosts ← b.profile.bump s.boosts
    let elapsed ← b.profile.sub r.boosted b.base .arithmetic
    let periods ← b.profile.mul (elapsed / (20 * T) + 1) (20 * T) .arithmetic
    let boost ← checkedAdd b.base periods .boostOverflow
    .ok { s with tasks, boosts, boost }
  else .ok s

/-- The task to run and, when it is newly chosen, its dispatch. -/
def dispatch (b : Batch) (r : Readings) (s : Loop) : Except Panic (Option (TaskId × Loop)) :=
  match s.current with
  | some i => .ok (some (i, s))
  | none =>
    match s.ready.pop s.tasks b.mlfq with
    | none => .ok none
    | some (i, ready) => do
      let t := s.tasks i
      let t := { t with
        state := .running
        maxWait := max t.maxWait (r.dispatched - t.readySince)
        first := some (t.first.getD r.dispatched) }
      let deadline ← after T r.quantum
      let switches ← b.profile.bump s.switches
      .ok (some (i, { s.setTask i t with ready, current := some i, deadline, switches }))

/-- MLFQ recomputes the deadline before each entry. The other policies keep the
one at hand, so an ordinary syscall of RR returns under the old deadline. -/
def pickDeadline (b : Batch) (r : Readings) (t : Task) (s : Loop) : Except Panic Nat :=
  if b.mlfq then after (max (min (min t.slice t.allot) (s.boost - r.untilBoost)) 1) r.armed
  else .ok s.deadline

/-- Writing the frame slot and arming the timer. -/
def arm (b : Batch) (r : Readings) (i : TaskId) (s : Loop) : Except Panic Loop :=
  let s := { s with
    slots := Function.update s.slots i (s.tasks i).frame
    exchange := { s.exchange with expected := b.image.framePtr i } }
  if b.timed then do
    let deadline ← b.pickDeadline r (s.tasks i) s
    let s := { s with deadline }
    match b.policy with
    -- Lesson 13 stops rearming once its one-shot count is reached.
    | .timer limit => .ok (if limit ≤ (s.tasks i).timers then s else s.arm s.deadline)
    | _ => .ok (s.arm s.deadline)
  else .ok s

/-- From a loop head to the call of `run_task`; `none` is the `break`. -/
def enter (b : Batch) (r : Readings) (s : Loop) : Except Panic (Option (TaskId × Loop)) :=
  if s.ready.Checks s.tasks b.specs.length then do
    let s ← b.raise r s
    match ← b.dispatch r s with
    | none => .ok none
    | some (i, s) => do
      let s ← b.arm r i s
      .ok (some (i, s))
  else .error .readyCheck

/-- The user interval that ended with this trap, charged under MLFQ. -/
def charge (b : Batch) (r : Readings) (time : Nat) (t : Task) : Except Panic Task :=
  if b.mlfq then do
    let delta ← checkedSub time r.entered .timeBackwards
    .ok { t with
      slice := t.slice - delta
      allot := if t.level < 2 then t.allot - delta else t.allot }
  else .ok t

/-- `match event.reason { .. }`, with the `requeue` flag it sets. -/
def answer (b : Batch) (r : Readings) (i : TaskId) (s : Loop) (t : Task) :
    Except Panic (Loop × Task × Bool) :=
  match s.exchange.reason with
  | .exit code =>
    if code = 0 then
      .ok ({ s with current := none }, { t with state := .done, completion := s.exchange.time }, false)
    else .error .taskFailure
  | .fault cause =>
    match b.specs[i.val]? with
    | none => .error .index
    | some spec =>
      if spec.fault ∧ cause = 2 then
        .ok ({ s with current := none }, { t with state := .done, completion := s.exchange.time },
          false)
      else .error .taskFault
  | .yield => .ok (s, { t with yields := t.yields + 1 }, true)
  | .timer =>
    let t := { t with timers := t.timers + 1 }
    match b.policy with
    | .timer limit =>
      if t.timers = limit then .ok ({ s.stop with timerDone := 1 }, t, false)
      else do
        let deadline ← after T r.limit
        .ok ({ s with deadline }, t, false)
    | _ => .ok (s, t, true)
  | .syscall => .ok (s, { t with syscalls := t.syscalls + 1 }, false)

/-- Demotion and slice refill of a live task under MLFQ. -/
def demote (t : Task) (requeue : Bool) : Except Panic (Task × Bool) :=
  if t.level < 2 ∧ t.allot = 0 then do
    let t ← { t with level := t.level + 1, demotions := t.demotions + 1 }.budget
    .ok (t, true)
  else if t.slice = 0 then do
    let slice ← at_ slices t.level
    .ok ({ t with slice }, true)
  else .ok (t, requeue)

/-- The budget rules of MLFQ and the quantum of RR. -/
def account (b : Batch) (s : Loop) (t : Task) (requeue : Bool) : Except Panic (Task × Bool) :=
  if t.state ≠ .done ∧ b.mlfq then do
    let (t, requeue) ← demote t requeue
    .ok (t, requeue || decide (s.boost ≤ s.exchange.time))
  else if t.state ≠ .done ∧ b.policy = .rr ∧ s.deadline ≤ s.exchange.time then .ok (t, true)
  else .ok (t, requeue)

/-- Storing the settled task, at the queue tail when it has to go back. -/
def store (r : Readings) (i : TaskId) (s : Loop) (t : Task) (requeue : Bool) : Except Panic Loop :=
  if requeue then
    let t := { t with
      preemptions := if s.exchange.reason = .timer ∨ s.exchange.reason = .syscall
        then t.preemptions + 1 else t.preemptions
      state := .ready
      readySince := r.requeued }
    match s.ready.push i with
    | .ok ready => .ok { s.setTask i t with ready, current := none }
    | .error error => .error (.enqueue error)
  else .ok (s.setTask i t)

/-- From the return of `run_task` to the next loop head. -/
def settle (b : Batch) (r : Readings) (i : TaskId) (s : Loop) : Except Panic Loop := do
  let t := { s.tasks i with frame := s.exchange.frame }
  let t ← b.charge r s.exchange.time t
  let (s, t, requeue) ← b.answer r i s t
  let (t, requeue) ← b.account s t requeue
  let s ← store r i s t requeue
  s.record b.profile i requeue

/-- Every way the report after the loop stops. -/
inductive ReportPanic where
  | unfinished
  | timerCount
  | escaped
  | neverStarted
  | underflow
  deriving DecidableEq

/-- The numbers of one `[task]` line. -/
structure Line where
  timers : Nat
  yields : Nat
  syscalls : Nat
  demotions : Nat
  preemptions : Nat
  response : Nat
  turnaround : Nat
  maxWait : Nat

/-- `Policy::Timer(limit)` with a count other than `limit`. -/
def miscounts (b : Batch) (timers : Nat) : Bool :=
  match b.policy with
  | .timer limit => timers ≠ limit
  | _ => false

/-- One turn of the loop over the tasks after the scheduling loop. -/
def reportTask (b : Batch) (s : Loop) (i : Fin b.specs.length) : Except ReportPanic Line :=
  let t := s.tasks (b.task i)
  let spec := b.specs.get i
  if t.state ≠ .done then .error .unfinished
  else if spec.mode = 4 ∧ b.miscounts t.timers then .error .timerCount
  else if spec.mode = 2 ∧ b.mlfq ∧ t.demotions = 0 then .error .escaped
  else
    match t.first with
    | none => .error .neverStarted
    | some first => do
      let response ← b.profile.sub first b.base .underflow
      let turnaround ← b.profile.sub t.completion b.base .underflow
      .ok ⟨t.timers, t.yields, t.syscalls, t.demotions, t.preemptions, response, turnaround, t.maxWait⟩

/-- The report of a batch whose loop has stopped. -/
def report (b : Batch) (s : Loop) : Except ReportPanic (List Line) :=
  (List.finRange b.specs.length).mapM (b.reportTask s)

end Batch

/-- A loop head together with the last clock reading taken. -/
structure Head where
  loop : Loop
  clock : Nat

/-- One complete pass: which task ran from which state, the mailbox its trap
left, and the state of the next loop head. -/
structure Pass where
  before : Loop
  readings : Readings
  task : TaskId
  entry : Loop
  event : Exchange
  after : Loop

/-- The step relation of the loop. The environment chooses the readings, as
long as the clock never runs backwards, and the mailbox; a panic is no step. -/
def Batch.Step (b : Batch) (h : Head) (p : Pass) (h' : Head) : Prop :=
  p.before = h.loop ∧ p.readings.Nondecreasing h.clock p.event.time ∧
    b.enter p.readings p.before = .ok (some (p.task, p.entry)) ∧
    b.settle p.readings p.task (p.entry.trapped p.task p.event) = .ok p.after ∧
    h' = ⟨p.after, p.readings.requeued⟩

/-- A run of the batch from its first loop head, keeping every pass. -/
def Batch.Reaches (b : Batch) (passes : List Pass) (h : Head) : Prop :=
  ∃ s, b.start = .ok s ∧ Runs.Run b.Step ⟨s, b.base⟩ passes h

/-- Executing passes on given readings and mailboxes, as far as all of them succeed. -/
def Batch.drive (b : Batch) (h : Head) : List (Readings × Exchange) → Option (List Pass × Head)
  | [] => some ([], h)
  | (r, event) :: rest =>
    if r.Nondecreasing h.clock event.time then
      match b.enter r h.loop with
      | .ok (some (i, e)) =>
        match b.settle r i (e.trapped i event) with
        | .ok s => (b.drive ⟨s, r.requeued⟩ rest).map fun (passes, h') =>
          (⟨h.loop, r, i, e, event, s⟩ :: passes, h')
        | .error _ => none
      | _ => none
    else none

/-- `drive` from the first loop head. -/
def Batch.play (b : Batch) (inputs : List (Readings × Exchange)) : Option (List Pass × Head) :=
  b.start.toOption.bind fun s => b.drive ⟨s, b.base⟩ inputs

end Neonos.Scheduler
