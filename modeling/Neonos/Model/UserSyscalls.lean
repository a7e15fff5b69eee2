import Neonos.Model.Process

/-! Lessons 08 and 09, `user.rs`: the trap handlers of a program whose syscalls
all return, and of one that can exit. -/
namespace Neonos.Lesson09
open Lesson10

/-- Every way the two handlers stop; the last is a panic of a function they
share with lesson 10. -/
inductive HandlerPanic where
  | unexpectedTrap
  | unexpectedPc
  | unexpectedExit
  | outsidePrograms
  | unknownEcall
  | runtime (panic : Panic)
  deriving DecidableEq

/-- `1 << (usize::BITS - 1)`. -/
def INTERRUPT_BIT : Word := 1 <<< 63

/-- `address.checked_add(TRAP_FRAME_SIZE).unwrap_or(usize::MAX)`. -/
def frameEnd (address : Word) : Word :=
  if address.toNat + TRAP_FRAME_SIZE ≤ usizeMax then address + BitVec.ofNat 64 TRAP_FRAME_SIZE
  else BitVec.ofNat 64 usizeMax

/-- `validate_user_trap`, which gives the address of the frame back. -/
def validateUserTrap (layout : Layout) (stvec address : Word) (frame : TrapFrame) (codeStart codeEnd : Word) :
    Except HandlerPanic Word := do
  let (userStack, trapStack, _) ← layout.stackRanges.mapError .runtime
  let isInterrupt : Bool := frame.scause &&& INTERRUPT_BIT ≠ 0
  let causeCode := frame.scause &&& ~~~INTERRUPT_BIT
  let originSpp := (frame.sstatus &&& SSTATUS_SPP) >>> 8
  let frameInTrapStack : Bool := trapStack.start ≤ address ∧ frameEnd address ≤ trapStack.stop
  let userSpOk : Bool := userStack.Contains (frame.x 2) ∧ frame.x 2 &&& 0xf = 0
  let sepcInUserCode : Bool := codeStart ≤ frame.sepc ∧ frame.sepc < codeEnd
  let kernelStvecRestored : Bool := stvec = layout.trapEntry
  if originSpp ≠ 0 ∨ isInterrupt ∨ causeCode ≠ 8 ∨ !frameInTrapStack ∨ !userSpOk ∨ !sepcInUserCode ∨
      !kernelStvecRestored then
    .error .unexpectedTrap
  else .ok address

/-! ### Lesson 08 -/

/-- The linked addresses of the program of lesson 08. -/
structure User08 where
  start : Word
  stop : Word
  ecallUnknown : Word
  ecallInvalid : Word
  ecallO : Word
  ecallK : Word
  ecallNewline : Word

def User08.KnownEcall (user : User08) (address : Word) : Prop :=
  address = user.ecallUnknown ∨ address = user.ecallInvalid ∨ address = user.ecallO ∨ address = user.ecallK ∨
    address = user.ecallNewline

instance (user : User08) (address : Word) : Decidable (user.KnownEcall address) :=
  inferInstanceAs (Decidable (_ ∨ _))

/-- `handle_lesson08`; the frame it leaves is the one that is resumed. -/
def handleLesson08 (layout : Layout) (user : User08) (stvec address : Word) (frame : TrapFrame) :
    Except HandlerPanic TrapFrame := do
  let _ ← validateUserTrap layout stvec address frame user.start user.stop
  if user.KnownEcall frame.sepc then
    match Syscall.dispatch (frame.x 17) (frame.x 10) with
    | .ret result => (applyReturn frame result user.stop).mapError .runtime
    | .exit _ => .error .unexpectedExit
  else .error .unexpectedPc

/-! ### Lesson 09 -/

/-- The linked addresses of the two programs of lesson 09. -/
structure User09 where
  start : Word
  stop : Word
  ecallInvalidExit : Word
  ecallExit7 : Word
  stressStart : Word
  stressStop : Word
  stressEcall : Word

inductive EcallKind where
  | invalid
  | exit7
  | stress
  deriving DecidableEq

namespace User09

def ecallKind (user : User09) (address : Word) : Option EcallKind :=
  if address = user.ecallInvalidExit then some .invalid
  else if address = user.ecallExit7 then some .exit7
  else if address = user.stressEcall then some .stress
  else none

/-- The program the trap is from. -/
def codeAddresses (user : User09) (sepc : Word) : Except HandlerPanic (Word × Word) :=
  if user.start ≤ sepc ∧ sepc < user.stop then .ok (user.start, user.stop)
  else if user.stressStart ≤ sepc ∧ sepc < user.stressStop then .ok (user.stressStart, user.stressStop)
  else .error .outsidePrograms

end User09

/-- The statics `LAST_EXIT_CODE` and `EXPECTED_TRAP_FRAME`, and the trap vector. -/
structure Kernel where
  lastExitCode : Word
  expectedTrapFrame : Word
  stvec : Word

def Kernel.recordTrapFrame (k : Kernel) (address : Word) : Except HandlerPanic Kernel :=
  if k.expectedTrapFrame = 0 then .ok { k with expectedTrapFrame := address }
  else if k.expectedTrapFrame ≠ address then .error (.runtime .trapFrameDrift)
  else .ok k

/-- `handle_lesson09`: the action, the frame as it is left, and the statics. -/
def handleLesson09 (layout : Layout) (user : User09) (k : Kernel) (address : Word) (frame : TrapFrame) :
    Except HandlerPanic (Word × TrapFrame × Kernel) := do
  let (codeStart, codeEnd) ← user.codeAddresses frame.sepc
  let frameAddress ← validateUserTrap layout k.stvec address frame codeStart codeEnd
  let k ← k.recordTrapFrame frameAddress
  match user.ecallKind frame.sepc with
  | none => .error .unknownEcall
  | some _ =>
    match Syscall.dispatch (frame.x 17) (frame.x 10) with
    | .ret result => do
      let frame ← (applyReturn frame result codeEnd).mapError .runtime
      .ok (ACTION_RESUME_USER, frame, k)
    | .exit code => .ok (ACTION_TERMINATE_PROCESS, frame, { k with lastExitCode := code.setWidth 64 })

end Neonos.Lesson09
