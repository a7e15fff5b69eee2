import Neonos.Model.UserTask
import Neonos.Rv64User

/-! `user_scheduler.S`, the program of the scheduler's tasks, and what it runs
among: traps that give a task back to itself. Where the assembler puts an
instruction is not fixed here; only environment calls have a known length. -/
namespace Neonos.UserScheduler
open Rv64.Reg Rv64User ByteMemory Scheduler

inductive Label where
  | sched_entry
  | sched_loop
  | sched_yield
  | sched_yield_1
  | sched_syscall
  | sched_syscall_2
  | sched_next
  | sched_timer_wait
  | sched_fail
  | sched_fault
  deriving DecidableEq

/-- The lines of the file from `sched_code_start` to `sched_code_end`. The
local labels `1:` and `2:` carry the name of the block they are in. -/
def listing : Listing Label :=
  [(.sched_entry,
      [.li a3 0x12345678, .add t0 a3 s0, .sd t0 0 sp, .li s2 0, .li s3 0]),
    (.sched_loop,
      [.li t0 0x12345678, .bne a3 t0 .sched_fail,
        .add t0 a3 s0, .ld t1 0 sp, .bne t0 t1 .sched_fail,
        .addi s2 s2 1, .add s3 s3 s2,
        .li t0 1, .beq s4 t0 .sched_next,
        .li t0 4, .beq s4 t0 .sched_timer_wait,
        .li t0 3, .beq s4 t0 .sched_syscall,
        .li t0 2, .beq s4 t0 .sched_yield,
        .mv a0 s0, .li a7 1, .ecall, .bnez a0 .sched_fail]),
    (.sched_yield, [.li t2 10000]),
    (.sched_yield_1,
      [.addi t2 t2 (-1), .bnez t2 .sched_yield_1, .li a7 3, .ecall, .bnez a0 .sched_fail, .j .sched_next]),
    (.sched_syscall, [.li t2 1000]),
    (.sched_syscall_2,
      [.addi t2 t2 (-1), .bnez t2 .sched_syscall_2, .li a7 999, .ecall, .li t0 (-1), .bne a0 t0 .sched_fail]),
    (.sched_next,
      [.bltu s2 s1 .sched_loop,
        .addi t0 s1 1, .mul t0 t0 s1, .srli t0 t0 1, .bne s3 t0 .sched_fail,
        .li a0 0, .li a7 2, .ecall, .j .sched_fail]),
    (.sched_timer_wait,
      [.ld t0 0 s5, .beqz t0 .sched_loop,
        .li t0 0x12345678, .bne a3 t0 .sched_fail,
        .add t0 a3 s0, .ld t1 0 sp, .bne t0 t1 .sched_fail,
        .li a0 0, .li a7 2, .ecall]),
    (.sched_fail, [.li a0 99, .li a7 2, .ecall, .j .sched_fail]),
    (.sched_fault, [.illegal, .j .sched_fail])]

/-- The address of each place of the listing, from `sched_code_start` on. -/
structure Placement where
  addr : Nat → Word
  apart : ∀ k < listing.code.length, ∀ l < listing.code.length, addr k = addr l → k = l
  ecall : ∀ k, listing.code[k]? = some .ecall → addr (k + 1) = addr k + 4

namespace Placement

/-- `addr_of!` of a label. -/
def at_ (p : Placement) (l : Label) : Word := p.addr (listing.place l)

def hart (u : User Memory) : Hart := ⟨u.x, u.zero, u.stack⟩

/-- The instruction at an address, with its place. -/
def fetch (p : Placement) (pc : Word) : Option (Instr Label × Nat) :=
  listing.code.zipIdx.find? fun line => p.addr line.2 = pc

/-- The processor in user mode over this code; what other code does is left open. -/
def machine (p : Placement) (elsewhere : Machine Memory) : Machine Memory := fun u =>
  match p.fetch u.pc with
  | none => elsewhere u
  | some (.ecall, _) => .trap 8
  | some (.illegal, _) => .trap 2
  | some (i, k) =>
    let s := i.run (hart u)
    .next ⟨s.x, s.zero, p.addr (((i.target (hart u)).map listing.place).getD (k + 1)), s.mem⟩

end Placement

/-! ### Among traps -/

/-- Back from any number of timer interrupts: the registers and the word on the
stack are what they were. -/
structure Resumed (u v : User Memory) : Prop where
  x : v.x = u.x
  pc : v.pc = u.pc
  word : load v.stack (u.x sp) = load u.stack (u.x sp)

/-- Back from an environment call: all of it but the result in `a0`. -/
structure Returned (u : User Memory) (result : Word) (v : User Memory) : Prop where
  x : v.x = Function.update u.x a0 result
  pc : v.pc = u.pc + 4
  word : load v.stack (u.x sp) = load u.stack (u.x sp)

/-- One instruction of the task, under the address it is at, whatever timer
interrupts came before it. Environment calls return what `answers` makes of
their number and argument. -/
inductive Proceeds (machine : Machine Memory) (answers : Word → Word → Option Word) :
    User Memory → Word → User Memory → Prop where
  | next (resumed : Resumed u v) (ran : machine v = .next w) : Proceeds machine answers u v.pc w
  | call (resumed : Resumed u v) (ecall : machine v = .trap 8)
      (answered : answers (v.x a7) (v.x a0) = some result) (returned : Returned v result w) :
      Proceeds machine answers u v.pc w

/-- What the calls of the program get: 0 for putchar and yield, -1 for the
unknown number 999. -/
def promised (number _arg0 : Word) : Option Word :=
  if number = 1 ∨ number = 3 then some 0 else if number = 999 then some (-1) else none

end Neonos.UserScheduler
