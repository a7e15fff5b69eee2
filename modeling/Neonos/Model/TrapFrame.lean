import Neonos.Rv64

/-! The trap frame of `trap.rs` and the syscall layer of `syscall.rs`. Words
are 64-bit machine words. The byte that `putchar` sends to the UART is the one
effect left out: no later decision of the kernel reads it. -/
namespace Neonos

/-- A `usize` held in a register, a CSR or memory. -/
abbrev Word := BitVec 64

/-- `usize::MAX`, for the counters and clock readings kept as naturals. -/
def usizeMax : Nat := 2 ^ 64 - 1

/-- `trap.rs::TrapFrame`: all integer registers and four CSRs at a trap. -/
structure TrapFrame where
  x : Fin 32 → Word
  sstatus : Word
  sepc : Word
  scause : Word
  stval : Word

/-- `TRAP_FRAME_SIZE`, 36 slots of 8 bytes. -/
def TRAP_FRAME_SIZE : Nat := 36 * 8

/-- `scheduler.rs::ZERO_FRAME`. -/
def ZERO_FRAME : TrapFrame := ⟨fun _ => 0, 0, 0, 0, 0⟩

/-- Writing one register slot of a frame. -/
def TrapFrame.setX (frame : TrapFrame) (k : Fin 32) (value : Word) : TrapFrame :=
  { frame with x := Function.update frame.x k value }

def SSTATUS_SIE : Word := 1 <<< 1
def SSTATUS_SPIE : Word := 1 <<< 5
def SSTATUS_SPP : Word := 1 <<< 8

/-- `status & !(SPP | SPIE | SIE)`: return to user mode, supervisor interrupts off. -/
def userStatus (sstatus : Word) : Word :=
  sstatus &&& ~~~(SSTATUS_SPP ||| SSTATUS_SPIE ||| SSTATUS_SIE)

namespace Syscall

def SYSCALL_PUTCHAR : Word := 1
def SYSCALL_EXIT : Word := 2
def ERR_UNKNOWN_SYSCALL : Int := -1
def ERR_INVALID_ARGUMENT : Int := -2

inductive SyscallOutcome where
  | ret (value : Int)
  | exit (code : BitVec 8)
  deriving DecidableEq

/-- `syscall.rs::dispatch`. -/
def dispatch (number arg0 : Word) : SyscallOutcome :=
  if number = SYSCALL_PUTCHAR then
    if 0x7f < arg0 then .ret ERR_INVALID_ARGUMENT else .ret 0
  else if number = SYSCALL_EXIT then
    if 0xff < arg0 then .ret ERR_INVALID_ARGUMENT else .exit (arg0.setWidth 8)
  else .ret ERR_UNKNOWN_SYSCALL

end Syscall

end Neonos
