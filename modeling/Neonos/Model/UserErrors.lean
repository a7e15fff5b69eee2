import Neonos.Model.Process

/-! Lesson 10, `user10.rs`: the trap handler of a single process, the mailbox to
the manager and the manager's `run_one`, without the feature that makes the
handler itself fault. -/
namespace Neonos.Lesson10

inductive RunOutcome where
  | exited (code : BitVec 8)
  | faulted (cause sepc stval : Word)
  deriving DecidableEq

structure Active where
  code : AddressRange
  outcome : Option RunOutcome

/-- The statics `ACTIVE` and `EXPECTED_TRAP_FRAME`, and the trap vector. -/
structure Kernel where
  active : Active
  expectedTrapFrame : Word
  stvec : Word

namespace Kernel

def recordTrapFrame (k : Kernel) (address : Word) : Except Panic Kernel :=
  if k.expectedTrapFrame = 0 then .ok { k with expectedTrapFrame := address }
  else if k.expectedTrapFrame ≠ address then .error .trapFrameDrift
  else .ok k

/-- `(*ACTIVE.0.get()).outcome = Some(outcome)`. -/
def complete (k : Kernel) (outcome : RunOutcome) : Kernel :=
  { k with active := { k.active with outcome := some outcome } }

/-- `outcome.take()` and the `expect` on it. -/
def takeOutcome (k : Kernel) : Except Panic (RunOutcome × Kernel) :=
  match k.active.outcome with
  | some outcome => .ok (outcome, { k with active := { k.active with outcome := none } })
  | none => .error .missingCompletion

end Kernel

/-- `handle`: the action, the frame as it is left, and the statics. -/
def handle (layout : Layout) (k : Kernel) (address : Word) (frame : TrapFrame) :
    Except Panic (Word × TrapFrame × Kernel) := do
  let (_, trapStack, _) ← layout.stackRanges
  let top ← checkedSub trapStack.stop (BitVec.ofNat 64 TRAP_FRAME_SIZE)
  require (address = top) .trapFrame
  let k ← k.recordTrapFrame address
  require (frame.sstatus &&& SSTATUS_SPP = 0) .kernelSource
  require (frame.scause >>> 63 = 0) .unexpectedInterrupt
  require (k.stvec = layout.trapEntry) .trapVector
  let api ← AddressRange.new layout.userApiStart layout.userApiEnd
  require (k.active.code.Contains frame.sepc ∨ api.Contains frame.sepc) .pcOutside
  if frame.scause = 8 then
    match Syscall.dispatch (frame.x 17) (frame.x 10) with
    | .ret result => do
      let stop := if api.Contains frame.sepc then api.stop else k.active.code.stop
      let frame ← applyReturn frame result stop
      .ok (ACTION_RESUME_USER, frame, k)
    | .exit code => .ok (ACTION_TERMINATE_PROCESS, frame, k.complete (.exited code))
  else if frame.scause = 2 then
    .ok (ACTION_TERMINATE_PROCESS, frame, k.complete (.faulted frame.scause frame.sepc frame.stval))
  else .error .unsupportedException

/-- A trap from user mode: the frame that `user_trap_entry` stores, and where. -/
structure Trap where
  address : Word
  frame : TrapFrame

/-- What the handler made of a trap, with the mailbox it left. -/
structure Answer where
  action : Word
  frame : TrapFrame
  mailbox : Option RunOutcome

/-- `run_user` up to its return, which is the action that ended it, or up to the
last of the traps. `user_trap_entry` puts the kernel's trap vector back before
it calls the handler. -/
def runUser (layout : Layout) : Kernel → List Trap → Except Panic (List Answer × Kernel × Option Word)
  | k, [] => .ok ([], { k with stvec := layout.userTrapEntry }, none)
  | k, trap :: traps => do
    let (action, frame, k) ← handle layout { k with stvec := layout.trapEntry } trap.address trap.frame
    let answer : Answer := ⟨action, frame, k.active.outcome⟩
    if action = ACTION_TERMINATE_PROCESS then .ok ([answer], k, some action)
    else do
      let (answers, k, action) ← runUser layout k traps
      .ok (answer :: answers, k, action)

/-- The arguments of `run_one`, the hart it runs on, and the traps its process raises. -/
structure Call where
  pid : BitVec 64
  name : String
  start : Word
  stop : Word
  hart : Hart
  traps : List Trap

/-- A `run_one` that has returned, with its process when it entered user mode and at the end. -/
structure Finished where
  outcome : RunOutcome
  entered : Process
  process : Process

/-- A `run_one` that has returned, or whose process is in user mode. -/
structure RunOf where
  answers : List Answer
  finished : Option Finished

def runOne (layout : Layout) (k : Kernel) (call : Call) : Except Panic (RunOf × Kernel) := do
  let program ← Program.fromLinked call.name call.start call.start call.stop
  let (userStack, trapStack, _) ← layout.stackRanges
  clearRuntimeStacks call.hart userStack trapStack
  let process ← layout.prepareProcess call.hart call.pid program userStack trapStack
  let _ ← process.userRuntime
  let (answers, k, action) ← runUser layout { k with active := ⟨program.codeRange, none⟩ } call.traps
  match action with
  | none => .ok (⟨answers, none⟩, k)
  | some action => do
    require (action = ACTION_TERMINATE_PROCESS) .unexpectedAction
    let (outcome, k) ← k.takeOutcome
    let ended ← match outcome with
      | .exited code => process.finishExit code
      | .faulted cause sepc stval => process.finishFault ⟨cause, sepc, stval⟩
    require (ended.state ≠ .ready ∧ ended.state ≠ .running) .unfinished
    clearRuntimeStacks call.hart userStack trapStack
    .ok (⟨answers, some ⟨outcome, process, ended⟩⟩, k)

/-- One `run_one` after another, as long as each returns. -/
def session (layout : Layout) : Kernel → List Call → Except Panic (List RunOf × Kernel)
  | k, [] => .ok ([], k)
  | k, call :: calls => do
    let (run, k) ← runOne layout k call
    match run.finished with
    | none => .ok ([run], k)
    | some _ => do
      let (runs, k) ← session layout k calls
      .ok (run :: runs, k)

end Neonos.Lesson10
