import Neonos.Model.UserScheduler

/-! A batch over its tasks' machines, with every way it can stop: the `break`
of the loop, and a panic before a task is entered, in the trap handler, or
before the next loop head. -/
namespace Neonos.Scheduler
open ByteMemory

/-- Where a batch has got to: a loop head, the `break`, or a panic. -/
inductive Status (σ : Type u) where
  | going (s : σ)
  | stopped (s : σ)
  | panicked (cause : Panic)

/-- The clock in one pass: it never runs backwards and stays 20 quanta below
the end of a `usize`. -/
structure Readings.Ticks (r : Readings) (last trap : Nat) : Prop where
  forward : r.Nondecreasing last trap
  room : r.requeued ≤ usizeMax - 20 * T

/-- A trap from user mode. -/
structure FromUser (machine : Machine μ) (u v : User μ) (raw : TrapFrame) : Prop where
  trapped : Trapped machine u v raw
  mode : raw.sstatus &&& SSTATUS_SPP = 0

/-- A trap from user mode that has let the task get on: a timer interrupt comes
behind at least one instruction. -/
structure GettingOn (machine : Machine μ) (u v : User μ) (raw : TrapFrame) : Prop extends FromUser machine u v raw where
  first : raw.scause = TIMER_INTERRUPT → ∃ w, machine u = .next w ∧ Computes machine w v

/-- One pass of the loop, as far as it gets; `raises` says which traps the
hardware takes. -/
inductive Batch.Goes (b : Batch) (machines : TaskId → Machine μ)
    (raises : Machine μ → User μ → User μ → TrapFrame → Prop) : Status (System μ) → Status (System μ) → Prop
  | enters (ticks : r.Ticks s.head.clock time) (panics : b.enter r s.head.loop = .error cause) :
      Goes b machines raises (.going s) (.panicked cause)
  | breaks (ticks : r.Ticks s.head.clock time) (breaks : b.enter r s.head.loop = .ok none) :
      Goes b machines raises (.going s) (.stopped s)
  | handles (ticks : r.Ticks s.head.clock time) (entered : b.enter r s.head.loop = .ok (some (i, e)))
      (raised : raises (machines i) (.load (e.slots i) (s.memories i)) v raw)
      (panics : handle b.image time e.exchange.expected (b.image.framePtr i) raw = .error cause) :
      Goes b machines raises (.going s) (.panicked cause)
  | settles (ticks : r.Ticks s.head.clock time) (entered : b.enter r s.head.loop = .ok (some (i, e)))
      (raised : raises (machines i) (.load (e.slots i) (s.memories i)) v raw)
      (handled : handle b.image time e.exchange.expected (b.image.framePtr i) raw = .ok event)
      (panics : b.settle r i (e.trapped i event) = .error cause) :
      Goes b machines raises (.going s) (.panicked cause)
  | turns (ticks : r.Ticks s.head.clock time) (entered : b.enter r s.head.loop = .ok (some (i, e)))
      (raised : raises (machines i) (.load (e.slots i) (s.memories i)) v raw)
      (handled : handle b.image time e.exchange.expected (b.image.framePtr i) raw = .ok event)
      (settled : b.settle r i (e.trapped i event) = .ok next) :
      Goes b machines raises (.going s) (.going ⟨⟨next, r.requeued⟩, Function.update s.memories i v.stack⟩)

/-! ### One memory -/

/-- The loop with one memory for all tasks and the kernel: there is no address
translation. -/
structure Shared where
  head : Head
  memory : Memory

/-- The address of the doubleword at a task's stack pointer. -/
def Batch.word (b : Batch) (j : Fin b.specs.length) : Word := b.image.stackTop (b.task j) true - 16

/-- What the kernel does to memory in a pass: anything, but the tasks' words are as before. -/
def Batch.Spares (b : Batch) (m m' : Memory) : Prop := ∀ j, load m' (b.word j) = load m (b.word j)

/-- One pass over the one memory, which the kernel writes before and after the task. -/
inductive Batch.SharedGoes (b : Batch) (machine : Machine Memory)
    (raises : Machine Memory → User Memory → User Memory → TrapFrame → Prop) : Status Shared → Status Shared → Prop
  | enters (ticks : r.Ticks s.head.clock time) (panics : b.enter r s.head.loop = .error cause) :
      SharedGoes b machine raises (.going s) (.panicked cause)
  | breaks (ticks : r.Ticks s.head.clock time) (breaks : b.enter r s.head.loop = .ok none) :
      SharedGoes b machine raises (.going s) (.stopped s)
  | handles (ticks : r.Ticks s.head.clock time) (entered : b.enter r s.head.loop = .ok (some (i, e)))
      (before : b.Spares s.memory m) (raised : raises machine (.load (e.slots i) m) v raw)
      (panics : handle b.image time e.exchange.expected (b.image.framePtr i) raw = .error cause) :
      SharedGoes b machine raises (.going s) (.panicked cause)
  | settles (ticks : r.Ticks s.head.clock time) (entered : b.enter r s.head.loop = .ok (some (i, e)))
      (before : b.Spares s.memory m) (raised : raises machine (.load (e.slots i) m) v raw)
      (handled : handle b.image time e.exchange.expected (b.image.framePtr i) raw = .ok event)
      (panics : b.settle r i (e.trapped i event) = .error cause) :
      SharedGoes b machine raises (.going s) (.panicked cause)
  | turns (ticks : r.Ticks s.head.clock time) (entered : b.enter r s.head.loop = .ok (some (i, e)))
      (before : b.Spares s.memory m) (raised : raises machine (.load (e.slots i) m) v raw)
      (handled : handle b.image time e.exchange.expected (b.image.framePtr i) raw = .ok event)
      (settled : b.settle r i (e.trapped i event) = .ok next) (behind : b.Spares v.stack m') :
      SharedGoes b machine raises (.going s) (.going ⟨⟨next, r.requeued⟩, m'⟩)

/-! ### `run` -/

/-- The feature that picks the batches of `run`, which asserts that it is exactly one. -/
inductive Checkpoint where
  | lesson12Yield
  | lesson13Timer
  | lesson14Preemption
  | lesson15Mlfq
  deriving DecidableEq

/-- A call of `batch`, without the name that it prints. -/
structure BatchCall where
  policy : Policy
  specs : List Spec

/-- A task that starts at the illegal instruction. -/
def faulting : Spec := ⟨1, 0, true⟩

/-- The two tasks that lesson 15 runs under both policies. -/
def workload : List Spec := [Spec.new 2 5000, Spec.new 1 2000000]

/-- The batches that both preemptive lessons begin with. -/
def preempting (policy : Policy) : List BatchCall :=
  [⟨policy, [Spec.new 1 2000000, Spec.new 1 2000000]⟩, ⟨policy, [Spec.new 1 1000000]⟩,
    ⟨policy, [faulting, Spec.new 1 1, Spec.new 1 1000000]⟩, ⟨policy, [Spec.new 3 5000, Spec.new 1 1000000]⟩]

/-- The batches of `run`, in order. -/
def batches : Checkpoint → List BatchCall
  | .lesson12Yield =>
    [⟨.yield, [Spec.new 0 3, Spec.new 0 3]⟩, ⟨.yield, [Spec.new 2 3]⟩, ⟨.yield, [Spec.new 2 500, Spec.new 2 500]⟩,
      ⟨.yield, [faulting, Spec.new 2 3]⟩]
  | .lesson13Timer => [⟨.timer 1, [Spec.new 4 0]⟩, ⟨.timer 10, [Spec.new 4 0]⟩]
  | .lesson14Preemption => preempting .rr
  | .lesson15Mlfq => preempting .mlfq ++ [⟨.rr, workload⟩, ⟨.mlfq, workload⟩]

/-- The next batch: the same build and image, the mailbox as it was left, and a
later reading of the clock that leaves room for its deadlines. -/
structure Batch.Follows (b : Batch) (h : Head) (call : BatchCall) (c : Batch) : Prop where
  profile : c.profile = b.profile
  policy : c.policy = call.policy
  specs : c.specs = call.specs
  image : c.image = b.image
  mailbox : c.mailbox = h.loop.exchange
  base : h.clock ≤ c.base
  room : c.base ≤ usizeMax - 20 * T

/-- Where `run` has got to: in a batch with others to follow, behind the last of
them, or stopped by a report or by the code before a loop. -/
inductive Stage where
  | batch (b : Batch) (rest : List BatchCall) (status : Status Shared)
  | complete
  | refused (cause : Batch.ReportPanic)
  | panicked (cause : Panic)

/-- One step of `run`. The kernel clears stacks between batches; what else it
does to memory there is left open. -/
inductive Stage.Goes (machine : Machine Memory)
    (raises : Machine Memory → User Memory → User Memory → TrapFrame → Prop) : Stage → Stage → Prop
  | inside (step : b.SharedGoes machine raises status status') : Goes machine raises (.batch b rest status) (.batch b rest status')
  | refuses (failed : b.report s.head.loop = .error cause) :
      Goes machine raises (.batch b rest (.stopped s)) (.refused cause)
  | panics (reported : b.report s.head.loop = .ok lines) (follows : b.Follows s.head call c)
      (panics : c.start = .error cause) : Goes machine raises (.batch b (call :: rest) (.stopped s)) (.panicked cause)
  | starts (reported : b.report s.head.loop = .ok lines) (follows : b.Follows s.head call c)
      (started : c.start = .ok first) (memory : Memory) :
      Goes machine raises (.batch b (call :: rest) (.stopped s)) (.batch c rest (.going ⟨⟨first, c.base⟩, memory⟩))
  | completes (reported : b.report s.head.loop = .ok lines) :
      Goes machine raises (.batch b [] (.stopped s)) .complete

end Neonos.Scheduler

namespace Neonos.UserScheduler
open Scheduler

/-- The addresses the scheduler takes are those of the program, which lies in
one piece. -/
structure Placement.Linked (p : Placement) (image : Image) : Prop where
  start : image.schedCodeStart = p.addr 0
  stop : image.schedCodeEnd = p.addr listing.code.length
  entry : image.schedEntry = p.at_ .sched_entry
  fault : image.schedFault = p.at_ .sched_fault
  ascending : ∀ k < listing.code.length, p.addr k < p.addr (k + 1)

/-- A batch of the program's own modes, apart from the one that waits for the
timer flag of lesson 13. -/
def Runnable (spec : Spec) : Prop :=
  spec.mode ≤ 3 ∧ (spec.fault = false → 1 ≤ spec.iterations ∧ spec.iterations < 2 ^ 32)

instance (spec : Spec) : Decidable (Runnable spec) := inferInstanceAs (Decidable (_ ∧ _))

end Neonos.UserScheduler
