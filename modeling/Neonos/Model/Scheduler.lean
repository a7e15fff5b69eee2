import Mathlib
import Neonos.Model.TrapFrame
import Neonos.StableChoice

/-! Tasks, the flat Ready queue and the trap handler of `scheduler.rs`, with
the constants of `timer.rs`. Clock readings and the `usize` counters of a task
are naturals, the counters `batch` reports are the `i32` they are in the source.
Where the source checks its arithmetic, so does the model; a plain operation
that does not fit panics or wraps, as the build profile has it. -/
namespace Neonos.Scheduler
open StableChoice

/-- `timer.rs::T`, the base quantum in platform ticks. -/
def T : Nat := 10000

/-- Capacity of the task table. -/
def N : Nat := 4
def STACK : Nat := 16384

/-- An index into the task table. -/
abbrev TaskId := Fin N

inductive PushError where
  | badTaskId
  | queueFull
  | duplicateTask
  deriving DecidableEq

/-- Every way the modelled code stops: a failed assertion, `unwrap` or
`expect`, an index out of range, or a checked or plain operation that does not
fit a `usize`. -/
inductive Panic where
  | index
  | arithmetic
  | zeroInterval
  | deadlineOverflow
  | boostOverflow
  | timeBackwards
  | readyCheck
  | enqueue (error : PushError)
  | taskFailure
  | taskFault
  | wrongTrapStack
  | kernelFault
  | pcEscaped
  | unexpectedInterrupt
  | pcOverflow
  | unexpectedException
  | counterOverflow
  deriving DecidableEq

/-- The two profiles of `Cargo.toml`, which leaves `overflow-checks` alone: `dev`
panics where a plain operation overflows, `release` wraps. -/
inductive Profile where
  | dev
  | release
  deriving DecidableEq

/-- `usize::checked_add`, naming the panic of the `expect` or `unwrap` on it. -/
def checkedAdd (a b : Nat) (panic : Panic) : Except Panic Nat :=
  if a + b ≤ usizeMax then .ok (a + b) else .error panic

/-- A subtraction that must not go below zero. -/
def checkedSub (a b : Nat) (panic : Panic) : Except Panic Nat :=
  if b ≤ a then .ok (a - b) else .error panic

namespace Profile

/-- `a - b` on `usize`. -/
def sub (profile : Profile) (a b : Nat) (panic : ε) : Except ε Nat :=
  if b ≤ a then .ok (a - b)
  else
    match profile with
    | dev => .error panic
    | release => .ok (a + 2 ^ 64 - b)

/-- `a * b` on `usize`. -/
def mul (profile : Profile) (a b : Nat) (panic : ε) : Except ε Nat :=
  if a * b ≤ usizeMax then .ok (a * b)
  else
    match profile with
    | dev => .error panic
    | release => .ok (a * b % 2 ^ 64)

/-- `counter += 1` on an `i32`, the type that a literal without one falls back to. -/
def bump (profile : Profile) (counter : Int32) : Except Panic Int32 :=
  if profile = dev ∧ counter = Int32.maxValue then .error .counterOverflow else .ok (counter + 1)

end Profile

/-- Reading a fixed array: an index out of range panics. -/
def at_ (table : List Nat) (index : Nat) : Except Panic Nat :=
  match table[index]? with
  | some value => .ok value
  | none => .error .index

/-- `timer.rs::after`, given the clock reading it takes. -/
def after (interval now : Nat) : Except Panic Nat :=
  if 0 < interval then checkedAdd now interval .deadlineOverflow else .error .zeroInterval

inductive Reason where
  | syscall
  | yield
  | timer
  | exit (code : Nat)
  | fault (cause : Nat)
  deriving DecidableEq

/-- The mailbox between the trap handler and the management loop. -/
structure Exchange where
  expected : Word
  frame : TrapFrame
  reason : Reason
  time : Nat

inductive State where
  | ready
  | running
  | done
  deriving DecidableEq

structure Task where
  frame : TrapFrame
  state : State
  level : Nat
  slice : Nat
  allot : Nat
  timers : Nat
  yields : Nat
  syscalls : Nat
  demotions : Nat
  preemptions : Nat
  first : Option Nat
  completion : Nat
  readySince : Nat
  maxWait : Nat

/-- `[timer::T, 2 * timer::T, 4 * timer::T]`. -/
def slices : List Nat := [T, 2 * T, 4 * T]

/-- `[2 * timer::T, 4 * timer::T, usize::MAX]`. -/
def allots : List Nat := [2 * T, 4 * T, usizeMax]

/-- `Task::budget`: fresh slice and allotment of the task's level. -/
def Task.budget (t : Task) : Except Panic Task := do
  let slice ← at_ slices t.level
  let allot ← at_ allots t.level
  .ok { t with slice, allot }

/-- `scheduler.rs::Ready`. Slots from `len` on are stale. -/
structure Ready where
  ids : Vector TaskId N
  len : Nat
  within : len ≤ N

namespace Ready

def new : Ready := ⟨Vector.replicate N ⟨0, by decide⟩, 0, by decide⟩

/-- `self.ids[p]` for a position in use. -/
def slot (q : Ready) (p : Fin q.len) : TaskId :=
  have inside : p < N := Nat.lt_of_lt_of_le p.isLt q.within
  q.ids[p.val]

/-- `self.ids[..self.len]`. -/
def contents (q : Ready) : List TaskId := List.ofFn q.slot

def push (q : Ready) (id : Nat) : Except PushError Ready :=
  if known : id < N then
    if full : q.len = N then .error .queueFull
    else if ⟨id, known⟩ ∈ q.contents then .error .duplicateTask
    else
      have room : q.len < N := Nat.lt_of_le_of_ne q.within full
      .ok ⟨q.ids.set q.len ⟨id, known⟩ room, q.len + 1, room⟩
  else .error .badTaskId

/-- `ids.copy_within(pos + 1..len, pos)` and the shorter length. -/
def closeGap (q : Ready) (pos : Fin q.len) : Ready where
  ids := Vector.ofFn fun k : TaskId =>
    if later : pos.val ≤ k.val ∧ k.val + 1 < q.len then q.slot ⟨k + 1, later.2⟩ else q.ids[k.val]
  len := q.len - 1
  within := Nat.le_trans (Nat.sub_le _ _) q.within

/-- `Ready::pop`. Nothing to choose from is `None`, for both orders. -/
def pop (q : Ready) (tasks : TaskId → Task) (mlfq : Bool) : Option (TaskId × Ready) :=
  if empty : q.len = 0 then none
  else
    let pos := if mlfq then least (fun p => (tasks (q.slot p)).level) (List.finRange q.len)
      else some ⟨0, Nat.pos_of_ne_zero empty⟩
    pos.map fun pos => (q.slot pos, q.closeGap pos)

/-- Every assertion of `Ready::check`. -/
def Checks (q : Ready) (tasks : TaskId → Task) (count : Nat) : Prop :=
  q.len ≤ count ∧ (∀ id ∈ q.contents, (tasks id).state = .ready) ∧
    (∀ id : TaskId, id.val < count →
      q.contents.count id = if (tasks id).state = .ready then 1 else 0) ∧
    ((List.finRange N).filter fun id => id.val < count ∧ (tasks id).state = .running).length ≤ 1

instance (q : Ready) (tasks : TaskId → Task) (count : Nat) : Decidable (q.Checks tasks count) :=
  inferInstanceAs (Decidable (_ ∧ _ ∧ _ ∧ _))

end Ready

inductive Policy where
  | yield
  | timer (limit : Nat)
  | rr
  | mlfq
  deriving DecidableEq

structure Spec where
  mode : Nat
  iterations : Nat
  fault : Bool

/-- `Spec::new`. -/
def Spec.new (mode iterations : Nat) : Spec := ⟨mode, iterations, false⟩

/-- The linked addresses the scheduler takes with `addr_of!`. -/
structure Image where
  stacksStart : Word
  timerDone : Word
  schedCodeStart : Word
  schedCodeEnd : Word
  schedEntry : Word
  schedFault : Word

/-- `stack_top`: the user stacks come first in `Stacks`, the trap stacks after them. -/
def Image.stackTop (image : Image) (id : TaskId) (user : Bool) : Word :=
  if user then image.stacksStart + BitVec.ofNat 64 (id * STACK + STACK)
  else image.stacksStart + BitVec.ofNat 64 (N * STACK + id * STACK + STACK)

/-- `frame_ptr` of the main loop: the top frame of a task's own trap stack. -/
def Image.framePtr (image : Image) (id : TaskId) : Word :=
  image.stackTop id false - BitVec.ofNat 64 TRAP_FRAME_SIZE

/-- `frame.sepc.checked_add(4)`. -/
def nextPc (sepc : Word) : Except Panic Word :=
  if sepc.toNat + 4 ≤ usizeMax then .ok (sepc + 4) else .error .pcOverflow

/-- How `handle` classifies a trap and rewrites the frame for it. -/
def classify (frame : TrapFrame) : Except Panic (TrapFrame × Reason) :=
  if frame.scause >>> 63 ≠ 0 then
    if frame.scause &&& ~~~(1 <<< 63 : Word) = 5 then .ok (frame, .timer) else .error .unexpectedInterrupt
  else if frame.scause = 8 then
    if frame.x 17 = 3 then do
      let sepc ← nextPc frame.sepc
      .ok ({ frame.setX 10 0 with sepc }, .yield)
    else
      match Syscall.dispatch (frame.x 17) (frame.x 10) with
      | .ret value => do
        let sepc ← nextPc frame.sepc
        .ok ({ frame.setX 10 (BitVec.ofInt 64 value) with sepc }, .syscall)
      | .exit code => .ok (frame, .exit code.toNat)
  else if frame.scause = 2 then .ok (frame, .fault frame.scause.toNat)
  else .error .unexpectedException

/-- `scheduler.rs::handle` on the frame stored at `address`, with the clock
reading it takes first. The result is the whole new mailbox; the frame in the
mailbox is also what stays in the trap-stack slot. -/
def handle (image : Image) (now : Nat) (expected address : Word) (frame : TrapFrame) :
    Except Panic Exchange :=
  if address ≠ expected then .error .wrongTrapStack
  else if frame.sstatus &&& SSTATUS_SPP ≠ 0 then .error .kernelFault
  else if ¬ (image.schedCodeStart ≤ frame.sepc ∧ frame.sepc < image.schedCodeEnd) then
    .error .pcEscaped
  else do
    let (frame, reason) ← classify frame
    .ok { expected, frame := { frame with sstatus := userStatus frame.sstatus }, reason, time := now }

end Neonos.Scheduler
