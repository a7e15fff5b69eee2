import Neonos.Model.TrapFrame

/-! Programs and processes of `process.rs`, and what `user.rs` checks and sets
up before a process enters user mode. Printing is left out, and of the memory
that is cleared between runs only the check is kept. -/
namespace Neonos.Lesson10

/-- Every way the modelled code stops: a `panic!`, a failed assertion, an
`expect`, or a subtraction below zero. -/
inductive Panic where
  | codeRange
  | entryOutside
  | addressRange
  | transition
  | runtimeAttached
  | noRuntime
  | stackSize
  | stacksOverlap
  | userSp
  | trapStackAlignment
  | entryAlignment
  | interruptsEnabled
  | trustedStatus
  | notRunning
  | activeStack
  | arithmetic
  | trapFrame
  | trapFrameDrift
  | kernelSource
  | unexpectedInterrupt
  | trapVector
  | pcOutside
  | sepcOverflow
  | pcEscaped
  | unsupportedException
  | unexpectedAction
  | missingCompletion
  | unfinished
  deriving DecidableEq

/-- An assertion. -/
def require (condition : Prop) [Decidable condition] (panic : Panic) : Except Panic Unit :=
  if condition then .ok () else .error panic

/-- `a - b` on `usize`. -/
def checkedSub (a b : Word) : Except Panic Word := if b ≤ a then .ok (a - b) else .error .arithmetic

structure AddressRange where
  start : Word
  stop : Word
  deriving DecidableEq

namespace AddressRange

def new (start stop : Word) : Except Panic AddressRange :=
  if start < stop then .ok ⟨start, stop⟩ else .error .addressRange

def size (range : AddressRange) : Word := range.stop - range.start

def Contains (range : AddressRange) (address : Word) : Prop := range.start ≤ address ∧ address < range.stop

instance (range : AddressRange) (address : Word) : Decidable (range.Contains address) :=
  inferInstanceAs (Decidable (_ ∧ _))

def Overlaps (range other : AddressRange) : Prop := range.start < other.stop ∧ other.start < range.stop

instance (range other : AddressRange) : Decidable (range.Overlaps other) :=
  inferInstanceAs (Decidable (_ ∧ _))

end AddressRange

structure Program where
  name : String
  entry : Word
  codeStart : Word
  codeEnd : Word

namespace Program

def fromLinked (name : String) (entry codeStart codeEnd : Word) : Except Panic Program := do
  require (codeStart < codeEnd) .codeRange
  require (codeStart ≤ entry ∧ entry < codeEnd) .entryOutside
  .ok ⟨name, entry, codeStart, codeEnd⟩

def codeRange (program : Program) : AddressRange := ⟨program.codeStart, program.codeEnd⟩

end Program

structure FaultInfo where
  cause : Word
  sepc : Word
  stval : Word
  deriving DecidableEq

inductive ProcessState where
  | ready
  | running
  | exited (code : Int)
  | faulted (info : FaultInfo)
  deriving DecidableEq

/-- The states a refused transition was between. -/
structure InvalidTransition where
  current : ProcessState
  next : ProcessState

structure UserContext where
  x : Fin 32 → Word
  sepc : Word
  sstatus : Word

def UserContext.new (entry userSp sstatus : Word) : UserContext :=
  ⟨Function.update (fun _ => 0) 2 userSp, entry, sstatus⟩

structure UserRuntime where
  userStack : AddressRange
  trapStack : AddressRange
  context : UserContext

structure Process where
  id : BitVec 64
  program : Program
  state : ProcessState
  user : Option UserRuntime

namespace Process

def new (id : BitVec 64) (program : Program) : Process := ⟨id, program, .ready, none⟩

/-- The transitions that `transition` allows. -/
def Allowed : ProcessState → ProcessState → Prop
  | .ready, .running => True
  | .running, .exited _ => True
  | .running, .faulted _ => True
  | _, _ => False

instance : DecidableRel Allowed := fun current next => by
  cases current <;> cases next <;> unfold Allowed <;> infer_instance

def transition (process : Process) (next : ProcessState) : Except InvalidTransition Process :=
  if Allowed process.state next then .ok { process with state := next } else .error ⟨process.state, next⟩

/-- A transition that panics when it is refused. -/
def advance (process : Process) (next : ProcessState) : Except Panic Process :=
  (process.transition next).mapError fun _ => .transition

def start (process : Process) : Except Panic Process := process.advance .running

def finishExit (process : Process) (code : BitVec 8) : Except Panic Process := process.advance (.exited code.toNat)

def finishFault (process : Process) (info : FaultInfo) : Except Panic Process := process.advance (.faulted info)

def attachUserRuntime (process : Process) (runtime : UserRuntime) : Except Panic Process :=
  match process.user with
  | some _ => .error .runtimeAttached
  | none => .ok { process with user := some runtime }

def userRuntime (process : Process) : Except Panic UserRuntime :=
  match process.user with
  | some runtime => .ok runtime
  | none => .error .noRuntime

end Process

/-! ### `user.rs` -/

def STACK_BYTES : Word := 16 * 1024
def ACTION_RESUME_USER : Word := 0
def ACTION_TERMINATE_PROCESS : Word := 1

/-- The linked addresses. -/
structure Layout where
  userStackStart : Word
  userStackEnd : Word
  userTrapStackStart : Word
  userTrapStackEnd : Word
  sbootStack : Word
  ebootStack : Word
  userApiStart : Word
  userApiEnd : Word
  trapEntry : Word
  userTrapEntry : Word

/-- What the management code reads from the hart. -/
structure Hart where
  sie : Word
  sstatus : Word
  sp : Word

namespace Layout

def stackRanges (layout : Layout) : Except Panic (AddressRange × AddressRange × AddressRange) := do
  let userStack ← AddressRange.new layout.userStackStart layout.userStackEnd
  let trapStack ← AddressRange.new layout.userTrapStackStart layout.userTrapStackEnd
  let bootStack ← AddressRange.new layout.sbootStack layout.ebootStack
  .ok (userStack, trapStack, bootStack)

def validateRuntimeRanges (layout : Layout) (userStack trapStack : AddressRange) : Except Panic Unit := do
  let (_, _, bootStack) ← layout.stackRanges
  require (userStack.size = STACK_BYTES ∧ trapStack.size = STACK_BYTES) .stackSize
  require (¬ (userStack.Overlaps trapStack ∨ userStack.Overlaps bootStack ∨ trapStack.Overlaps bootStack))
    .stacksOverlap

def initialUserSp (userStack : AddressRange) : Except Panic Word := do
  let userSp ← checkedSub userStack.stop 16
  require (userSp &&& 0xf = 0 ∧ userStack.Contains userSp) .userSp
  .ok userSp

def prepareProcess (layout : Layout) (hart : Hart) (pid : BitVec 64) (program : Program)
    (userStack trapStack : AddressRange) : Except Panic Process := do
  layout.validateRuntimeRanges userStack trapStack
  require (trapStack.stop &&& 0xf = 0) .trapStackAlignment
  require (program.entry &&& 0x1 = 0) .entryAlignment
  require (hart.sie = 0) .interruptsEnabled
  let sstatus := userStatus hart.sstatus
  require (sstatus &&& SSTATUS_SPP = 0) .trustedStatus
  let userSp ← initialUserSp userStack
  let process ← (Process.new pid program).attachUserRuntime
    ⟨userStack, trapStack, UserContext.new program.entry userSp sstatus⟩
  let process ← process.start
  require (process.state = .running) .notRunning
  .ok process

end Layout

/-- The check of `clear_runtime_stacks`. -/
def clearRuntimeStacks (hart : Hart) (userStack trapStack : AddressRange) : Except Panic Unit :=
  require (¬ (userStack.Contains hart.sp ∨ trapStack.Contains hart.sp)) .activeStack

def applyReturn (frame : TrapFrame) (result : Int) (codeEnd : Word) : Except Panic TrapFrame := do
  require (frame.sepc.toNat + 4 ≤ usizeMax) .sepcOverflow
  let nextSepc := frame.sepc + 4
  require (nextSepc ≤ codeEnd) .pcEscaped
  .ok { frame.setX 10 (BitVec.ofInt 64 result) with sepc := nextSepc, sstatus := userStatus frame.sstatus }

end Neonos.Lesson10
