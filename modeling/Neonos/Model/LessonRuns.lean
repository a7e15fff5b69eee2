import Neonos.Model.UserErrors
import Neonos.Model.UserPrograms

/-! The managers of lessons 08 to 10 together with the processes they run: user
code takes its instructions one by one, and each of its traps goes to the
handler, as far as `run_user` or `enter_user_mode` has got by then. -/
namespace Neonos.LessonRuns
open Lesson10 UserPrograms ByteMemory
open Scheduler (User Machine exceptionCause)

/-- Where the traps of a process have got it to. -/
inductive Verdict where
  | entered (process : Process)
  | resumed (frame : TrapFrame)
  | ended (process : Process)

/-- A manager that runs so many processes. `one` is the code around and in one
run, given its number, the traps it has seen and the statics at its start; an
error is a panic. -/
structure Lesson (κ ε : Type) where
  layout : Layout
  image : Image
  elsewhere : Machine Memory
  runs : Nat
  one : Nat → List Trap → κ → Except ε (Verdict × κ)

/-- The statics between runs, the processes that have ended, the bytes that
`putchar` has sent to the UART, and user code with the traps of its run so far. -/
structure System (κ : Type) where
  kernel : κ
  ended : List Process
  console : List (BitVec 8)
  user : Option (List Trap × User Memory)

/-- The byte of a `putchar` that succeeds. -/
def printed (frame : TrapFrame) : List (BitVec 8) :=
  if frame.scause = 8 ∧ frame.x 17 = Syscall.SYSCALL_PUTCHAR ∧ ¬ 0x7f < frame.x 10 then [(frame.x 10).setWidth 8]
  else []

/-- What `run_user` and `enter_user_mode` start from: the stack pointer, and
zeroes in the other registers. -/
def started (runtime : UserRuntime) (stack : Memory) : User Memory where
  x := Function.update (fun _ => 0) 2 (runtime.context.x 2)
  zero := rfl
  pc := runtime.context.sepc
  stack

variable {κ ε : Type}

/-- The trap that `user_trap_entry` stores at the top of the trap stack. -/
def raised (layout : Layout) (u : User Memory) (sstatus : Word) (cause : BitVec 63) (stval : Word) : Trap :=
  ⟨layout.userTrapStackEnd - BitVec.ofNat 64 TRAP_FRAME_SIZE, u.save sstatus (exceptionCause cause) stval⟩

/-- One step of the system. User code finds anything on its stack; the hardware leaves any `sstatus` but for the bit
of the mode that trapped, and any `stval`. -/
inductive Lesson.Step (l : Lesson κ ε) : System κ → System κ → Prop
  | enter (managing : s.user = none) (more : s.ended.length < l.runs)
      (entered : l.one s.ended.length [] s.kernel = .ok (.entered process, k))
      (has : process.user = some runtime) (stack : Memory) :
      Step l s { s with user := some ([], started runtime stack) }
  | next (running : s.user = some (traps, u)) (ran : machine l.image.code l.elsewhere u = .next v) :
      Step l s { s with user := some (traps, v) }
  | resume (running : s.user = some (traps, u)) (trap : machine l.image.code l.elsewhere u = .trap cause)
      (sstatus stval : Word) (mode : sstatus &&& SSTATUS_SPP = 0)
      (resumed : l.one s.ended.length (traps ++ [raised l.layout u sstatus cause stval]) s.kernel =
        .ok (.resumed frame, k)) :
      Step l s { s with
        console := s.console ++ printed (raised l.layout u sstatus cause stval).frame
        user := some (traps ++ [raised l.layout u sstatus cause stval], .load frame u.stack) }
  | finish (running : s.user = some (traps, u)) (trap : machine l.image.code l.elsewhere u = .trap cause)
      (sstatus stval : Word) (mode : sstatus &&& SSTATUS_SPP = 0)
      (ended : l.one s.ended.length (traps ++ [raised l.layout u sstatus cause stval]) s.kernel =
        .ok (.ended process, k)) :
      Step l s ⟨k, s.ended ++ [process], s.console ++ printed (raised l.layout u sstatus cause stval).frame, none⟩

/-! ### Lesson 10 -/

/-- A call of `run_one` in `run`, with the assertion on its outcome. -/
structure Job where
  name : String
  start : Word
  stop : Word
  expected : RunOutcome → Bool

/-- Lesson 09's program once more, under the dispatcher of lesson 10. -/
def exit7 (image : Image) : Job :=
  ⟨"exit7", image.code.addr .user09_entry, image.user09_end, fun outcome => outcome = .exited 7⟩

def illegal (image : Image) : Job :=
  ⟨"illegal", image.code.addr .user10_fault_instruction, image.user10_fault_end, fun
    | .faulted cause sepc _ => cause = 2 ∧ sepc = image.code.addr .user10_fault_instruction
    | .exited _ => false⟩

def afterFault (image : Image) : Job :=
  ⟨"after-fault", image.code.addr .user10_normal_entry, image.user10_normal_end, fun outcome => outcome = .exited 0⟩

def stress (image : Image) : Job :=
  ⟨"stress", image.code.addr .user09_stress_entry, image.user09_stress_end, fun outcome => outcome = .exited 0⟩

/-- The calls of `run_one` by `run`, in order. -/
def jobs (image : Image) : List Job :=
  [exit7 image, illegal image, afterFault image] ++ List.replicate 100 (stress image)

/-- The panics of `run` besides those of `run_one`. -/
inductive RunPanic where
  | noJob
  | pidOverflow
  | unexpected (outcome : RunOutcome)
  | runOne (panic : Panic)
  deriving DecidableEq

/-- `run_one` up to its call of `run_process`. -/
def launch (layout : Layout) (call : Lesson10.Call) : Except Panic Process := do
  let program ← Program.fromLinked call.name call.start call.start call.stop
  let (userStack, trapStack, _) ← layout.stackRanges
  clearRuntimeStacks call.hart userStack trapStack
  layout.prepareProcess call.hart call.pid program userStack trapStack

/-- The `n`-th `run_one` of `run`, as far as these traps take it, and the
assertion on its outcome. -/
def one10 (layout : Layout) (image : Image) (hart : Lesson10.Hart) (firstPid : BitVec 64) (n : Nat) (traps : List Trap)
    (k : Lesson10.Kernel) : Except RunPanic (Verdict × Lesson10.Kernel) :=
  match (jobs image)[n]? with
  | none => .error .noJob
  | some job =>
    if firstPid.toNat + n < 2 ^ 64 then do
      let call : Lesson10.Call := ⟨firstPid + BitVec.ofNat 64 n, job.name, job.start, job.stop, hart, traps⟩
      let process ← (launch layout call).mapError .runOne
      let (run, k) ← (runOne layout k call).mapError .runOne
      match run.finished with
      | some f => if job.expected f.outcome then .ok (.ended f.process, k) else .error (.unexpected f.outcome)
      | none =>
        match run.answers.getLast? with
        | some answer => .ok (.resumed answer.frame, k)
        | none => .ok (.entered process, k)
    else .error .pidOverflow

def lesson10 (layout : Layout) (image : Image) (elsewhere : Machine Memory) (hart : Lesson10.Hart)
    (firstPid : BitVec 64) : Lesson Lesson10.Kernel RunPanic where
  layout
  image
  elsewhere
  runs := (jobs image).length
  one := one10 layout image hart firstPid

/-! ### Lesson 09 -/

/-- `NO_EXIT_CODE`. -/
def NO_EXIT_CODE : Word := BitVec.ofNat 64 usizeMax

/-- The linked addresses of the two programs. -/
def addresses09 (image : Image) : Lesson09.User09 where
  start := image.code.addr .user09_entry
  stop := image.user09_end
  ecallInvalidExit := image.code.addr .user09_ecall_invalid_exit
  ecallExit7 := image.code.addr .user09_ecall_exit7
  stressStart := image.code.addr .user09_stress_entry
  stressStop := image.user09_stress_end
  stressEcall := image.code.addr .user09_stress_ecall

/-- The panics of `run_lesson09` and `take_exit_code`, and of what they call. -/
inductive ExitPanic where
  | pidOverflow
  | noExitCode
  | exited (code : BitVec 8)
  | handler (panic : Lesson09.HandlerPanic)
  | manager (panic : Panic)
  deriving DecidableEq

/-- `run_user` as in lesson 10: the frame of the last answer as long as it has
not returned, and its action. -/
def runUser09 (layout : Layout) (user : Lesson09.User09) :
    Lesson09.Kernel → List Trap → Except Lesson09.HandlerPanic (Option TrapFrame × Lesson09.Kernel × Option Word)
  | k, [] => .ok (none, { k with stvec := layout.userTrapEntry }, none)
  | k, trap :: traps => do
    let (action, frame, k) ←
      Lesson09.handleLesson09 layout user { k with stvec := layout.trapEntry } trap.address trap.frame
    if action = ACTION_TERMINATE_PROCESS then .ok (none, k, some action)
    else do
      let (last, k, action) ← runUser09 layout user k traps
      .ok (if traps = [] then some frame else last, k, action)

/-- `take_exit_code`. -/
def takeExitCode (k : Lesson09.Kernel) : Except ExitPanic (BitVec 8 × Lesson09.Kernel) :=
  if 0xff < k.lastExitCode then .error .noExitCode
  else .ok (k.lastExitCode.setWidth 8, { k with lastExitCode := NO_EXIT_CODE })

/-- The `n`-th process of `run_lesson09`: the demo with exit code 7, and then a
hundred times the program that exits with 0. -/
def one09 (layout : Layout) (image : Image) (hart : Lesson10.Hart) (firstPid : BitVec 64) (n : Nat) (traps : List Trap)
    (k : Lesson09.Kernel) : Except ExitPanic (Verdict × Lesson09.Kernel) := do
  let user := addresses09 image
  let (userStack, trapStack, _) ← layout.stackRanges.mapError .manager
  let program ← (if n = 0 then Program.fromLinked "exit-demo" user.start user.start user.stop
    else Program.fromLinked "exit-stress" user.stressStart user.stressStart user.stressStop).mapError .manager
  if firstPid.toNat + n < 2 ^ 64 then do
    let process ← (layout.prepareProcess hart (firstPid + BitVec.ofNat 64 n) program userStack trapStack).mapError
      .manager
    let (frame, k, action) ← (runUser09 layout user { k with lastExitCode := NO_EXIT_CODE } traps).mapError .handler
    match action, frame with
    | none, none => .ok (.entered process, k)
    | none, some frame => .ok (.resumed frame, k)
    | some action, _ => do
      (require (action = ACTION_TERMINATE_PROCESS) .unexpectedAction).mapError .manager
      let (code, k) ← takeExitCode k
      if code = if n = 0 then 7 else 0 then do
        let process ← (process.finishExit code).mapError .manager
        (require (process.state = .exited (if n = 0 then 7 else 0)) .unfinished).mapError .manager
        (clearRuntimeStacks hart userStack trapStack).mapError .manager
        .ok (.ended process, k)
      else .error (.exited code)
  else .error .pidOverflow

def lesson09 (layout : Layout) (image : Image) (elsewhere : Machine Memory) (hart : Lesson10.Hart)
    (firstPid : BitVec 64) : Lesson Lesson09.Kernel ExitPanic where
  layout
  image
  elsewhere
  runs := 101
  one := one09 layout image hart firstPid

/-! ### Lesson 08 -/

def addresses08 (image : Image) : Lesson09.User08 where
  start := image.code.addr .user08_entry
  stop := image.user08_end
  ecallUnknown := image.code.addr .user08_ecall_unknown
  ecallInvalid := image.code.addr .user08_ecall_invalid
  ecallO := image.code.addr .user08_ecall_o
  ecallK := image.code.addr .user08_ecall_k
  ecallNewline := image.code.addr .user08_ecall_newline

/-- The handler on one trap after the other; nobody comes back from `enter_user_mode`. -/
def answered08 (layout : Layout) (user : Lesson09.User08) : List Trap → Except Lesson09.HandlerPanic (Option TrapFrame)
  | [] => .ok none
  | trap :: traps => do
    let frame ← Lesson09.handleLesson08 layout user layout.trapEntry trap.address trap.frame
    let last ← answered08 layout user traps
    .ok (if traps = [] then some frame else last)

/-- `run_lesson08`, which keeps no statics. -/
def one08 (layout : Layout) (image : Image) (hart : Lesson10.Hart) (pid : BitVec 64) (_ : Nat) (traps : List Trap)
    (_ : Unit) : Except ExitPanic (Verdict × Unit) := do
  let user := addresses08 image
  let program ← (Program.fromLinked "user-syscalls" user.start user.start user.stop).mapError .manager
  let (userStack, trapStack, _) ← layout.stackRanges.mapError .manager
  let process ← (layout.prepareProcess hart pid program userStack trapStack).mapError .manager
  let frame ← (answered08 layout user traps).mapError .handler
  match frame with
  | none => .ok (.entered process, ())
  | some frame => .ok (.resumed frame, ())

def lesson08 (layout : Layout) (image : Image) (elsewhere : Machine Memory) (hart : Lesson10.Hart)
    (pid : BitVec 64) : Lesson Unit ExitPanic where
  layout
  image
  elsewhere
  runs := 1
  one := one08 layout image hart pid

end Neonos.LessonRuns
