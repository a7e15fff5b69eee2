import Neonos.Model.Batch

/-! User tasks under the management loop. A task is a deterministic machine
over its registers, its program counter and whatever its private stack holds.
The loop runs it from the frame in the task's slot until a trap, which the
handler of `scheduler.rs` answers from the frame `user_trap_entry` stored. -/
namespace Neonos.Scheduler
open Runs

/-- The state a task computes with. Register zero is hardwired. -/
structure User (μ : Type u) where
  x : Fin 32 → Word
  zero : x 0 = 0
  pc : Word
  stack : μ

/-- What the instruction at the program counter does: it goes on to the next
state, or it raises an exception with its cause. -/
inductive Outcome (μ : Type u) where
  | next (u : User μ)
  | trap (cause : BitVec 63)

abbrev Machine (μ : Type u) := User μ → Outcome μ

namespace User

/-- What `sret` starts user code from. -/
def load (frame : TrapFrame) (stack : μ) : User μ :=
  ⟨Function.update frame.x 0 0, Function.update_self 0 0 frame.x, frame.sepc, stack⟩

/-- What `user_trap_entry` stores, with the CSRs the hardware sets. -/
def save (u : User μ) (sstatus scause stval : Word) : TrapFrame :=
  ⟨u.x, sstatus, u.pc, scause, stval⟩

end User

/-- `scause` of a supervisor timer interrupt. -/
def TIMER_INTERRUPT : Word := 1 <<< 63 ||| 5

/-- `scause` of an exception. -/
def exceptionCause (cause : BitVec 63) : Word := cause.setWidth 64

/-- Some user instructions, none of which traps. -/
def Computes (machine : Machine μ) : User μ → User μ → Prop :=
  Relation.ReflTransGen fun u v => machine u = .next v

/-- A user interval up to its trap: the task's own exception, or a timer
interrupt after any number of instructions. -/
inductive Trapped (machine : Machine μ) (u : User μ) : User μ → TrapFrame → Prop where
  | exception (ran : Computes machine u v) (trap : machine v = .trap cause) :
      Trapped machine u v (v.save sstatus (exceptionCause cause) stval)
  | timer (ran : Computes machine u v) : Trapped machine u v (v.save sstatus TIMER_INTERRUPT stval)

/-- The loop with the private stacks of all tasks. -/
structure System (μ : Type u) where
  head : Head
  memories : TaskId → μ

/-- One pass together with the frame its trap stored, before the handler saw it. -/
structure Turn where
  pass : Pass
  raw : TrapFrame

namespace Turn

def task (t : Turn) : TaskId := t.pass.task

/-- The frame `run_task` was called with. -/
def entered (t : Turn) : TrapFrame := t.pass.entry.slots t.pass.task

/-- The frame the handler left, in the slot and in the mailbox. -/
def left (t : Turn) : TrapFrame := t.pass.event.frame

def reason (t : Turn) : Reason := t.pass.event.reason

end Turn

/-- A pass of the loop in which the task of the pass really runs and the
mailbox is what the handler makes of its trap. -/
def Batch.Turns (b : Batch) (machines : TaskId → Machine μ) (s : System μ) (t : Turn)
    (s' : System μ) : Prop :=
  b.Step s.head t.pass s'.head ∧ ∃ v,
    Trapped (machines t.task) (.load t.entered (s.memories t.task)) v t.raw ∧
    handle b.image t.pass.event.time t.pass.entry.exchange.expected (b.image.framePtr t.task) t.raw =
      .ok t.pass.event ∧
    s'.memories = Function.update s.memories t.task v.stack

/-- A run of the batch over its tasks' machines. -/
def Batch.Executes (b : Batch) (machines : TaskId → Machine μ) (memories : TaskId → μ)
    (turns : List Turn) (s : System μ) : Prop :=
  ∃ first, b.start = .ok first ∧ Run (b.Turns machines) ⟨⟨first, b.base⟩, memories⟩ turns s

/-! ### A task on its own -/

/-- A system call that came back: number, argument and result. -/
structure Call where
  number : Word
  arg0 : Word
  result : Word
  deriving DecidableEq

/-- The result of the `ecall` at hand, unless it does not return. -/
def User.reply (u : User μ) : Option Word :=
  if u.x 17 = 3 then some 0
  else
    match Syscall.dispatch (u.x 17) (u.x 10) with
    | .ret value => some (BitVec.ofInt 64 value)
    | .exit _ => none

/-- The state after an `ecall` that returned. -/
def User.answered (u : User μ) (result : Word) : User μ where
  x := Function.update u.x 10 result
  zero := by rw [Function.update_of_ne (by decide), u.zero]
  pc := u.pc + 4
  stack := u.stack

/-- One step of a task that has the processor to itself and no timer. -/
inductive Alone (machine : Machine μ) (u : User μ) : Option Call → User μ → Prop where
  | next (step : machine u = .next v) : Alone machine u none v
  | call (ecall : machine u = .trap 8) (returns : u.reply = some result) :
      Alone machine u (some ⟨u.x 17, u.x 10, result⟩) (u.answered result)

/-- The task alone gets to `v`, with these calls on the way. -/
def Solo (machine : Machine μ) (u : User μ) (calls : List Call) (v : User μ) : Prop :=
  ∃ events, Run (Alone machine) u events v ∧ events.reduceOption = calls

/-- The instruction at hand is an exit or a fault. -/
def Finishes (machine : Machine μ) (v : User μ) : Prop :=
  (machine v = .trap 8 ∧ v.reply = none) ∨ machine v = .trap 2

end Neonos.Scheduler
