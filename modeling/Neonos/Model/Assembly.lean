import Neonos.Model.TrapFrame
import Neonos.Runs
import Neonos.Rv64

/-! The routines of `trap.S` and `user.S` that take control between the kernel
and user code, instruction by instruction, with the layout constants of
`trap.rs`. The Rust handlers they call and the data they address are labels. -/
namespace Neonos.Assembly
open Rv64 Rv64.Reg

inductive Label where
  | trap_entry
  | trap_entry_1
  | user_trap_entry
  | restore_user_frame
  | terminate_process
  | run_user
  | run_task
  | rust_trap_handler
  | rust_user_trap_handler
  | kernel_context
  | kernel_gp_saved
  | kernel_tp_saved
  deriving DecidableEq

/-! ### `trap.rs`, layout -/

/-- `X0` .. `X31`, offsets of the register slots. -/
def X (k : Nat) : Nat := 8 * k
def SSTATUS : Nat := 8 * 32
def SEPC : Nat := 8 * 33
def SCAUSE : Nat := 8 * 34
def STVAL : Nat := 8 * 35

def KCTX_RA : Nat := 8 * 0
def KCTX_SP : Nat := 8 * 1
def KCTX_GP : Nat := 8 * 2
def KCTX_TP : Nat := 8 * 3

/-- `KCTX_S0` .. `KCTX_S11`. -/
def KCTX_S (k : Nat) : Nat := 8 * (4 + k)

def tf_size : Int := TRAP_FRAME_SIZE

/-! ### `trap.S` -/

/-- The stores that `trap_entry` and `user_trap_entry` share, after `sd zero`,
`sd ra` and their own handling of `sp`, `gp`, `tp` and `t0`. -/
def saveCommon : List (Instr Label) :=
  [.sd t1 (X 6) sp, .sd t2 (X 7) sp, .sd s0 (X 8) sp, .sd s1 (X 9) sp, .sd a0 (X 10) sp,
    .sd a1 (X 11) sp, .sd a2 (X 12) sp, .sd a3 (X 13) sp, .sd a4 (X 14) sp, .sd a5 (X 15) sp,
    .sd a6 (X 16) sp, .sd a7 (X 17) sp, .sd s2 (X 18) sp, .sd s3 (X 19) sp, .sd s4 (X 20) sp,
    .sd s5 (X 21) sp, .sd s6 (X 22) sp, .sd s7 (X 23) sp, .sd s8 (X 24) sp, .sd s9 (X 25) sp,
    .sd s10 (X 26) sp, .sd s11 (X 27) sp, .sd t3 (X 28) sp, .sd t4 (X 29) sp, .sd t5 (X 30) sp,
    .sd t6 (X 31) sp,
    .csrr t0 .sstatus, .sd t0 SSTATUS sp,
    .csrr t0 .sepc, .sd t0 SEPC sp,
    .csrr t0 .scause, .sd t0 SCAUSE sp,
    .csrr t0 .stval, .sd t0 STVAL sp,
    .mv a0 sp]

def trap_entry : List (Instr Label) :=
  [.addi sp sp (-tf_size),
    .sd t0 (X 5) sp,
    .addi t0 sp tf_size,
    .sd t0 (X 2) sp,
    .sd zero (X 0) sp, .sd ra (X 1) sp, .sd gp (X 3) sp, .sd tp (X 4) sp] ++
  saveCommon ++
  [.call .rust_trap_handler]

/-- Label `1:` at the end of `trap_entry`, and the code before it. -/
def trap_entry_1 : List (Instr Label) := [.wfi, .j .trap_entry_1]

def user_trap_entry : List (Instr Label) :=
  [.csrrw sp .sscratch sp,
    .addi sp sp (-tf_size),
    .sd t0 (X 5) sp,
    .sd gp (X 3) sp,
    .sd tp (X 4) sp,
    .csrr t0 .sscratch,
    .sd t0 (X 2) sp,
    .la t0 .trap_entry,
    .csrw .stvec t0,
    .la t0 .kernel_gp_saved,
    .ld gp 0 t0,
    .la t0 .kernel_tp_saved,
    .ld tp 0 t0,
    .sd zero (X 0) sp, .sd ra (X 1) sp] ++
  saveCommon ++
  [.call .rust_user_trap_handler,
    .li t0 1,
    .beq a0 t0 .terminate_process]

def restore_user_frame : List (Instr Label) :=
  [.ld t0 SEPC sp,
    .csrw .sepc t0,
    .ld t0 SSTATUS sp,
    .csrw .sstatus t0,
    .ld t0 (X 2) sp,
    .csrw .sscratch t0,
    .ld ra (X 1) sp, .ld gp (X 3) sp, .ld tp (X 4) sp, .ld t1 (X 6) sp, .ld t2 (X 7) sp,
    .ld s0 (X 8) sp, .ld s1 (X 9) sp, .ld a0 (X 10) sp, .ld a1 (X 11) sp, .ld a2 (X 12) sp,
    .ld a3 (X 13) sp, .ld a4 (X 14) sp, .ld a5 (X 15) sp, .ld a6 (X 16) sp, .ld a7 (X 17) sp,
    .ld s2 (X 18) sp, .ld s3 (X 19) sp, .ld s4 (X 20) sp, .ld s5 (X 21) sp, .ld s6 (X 22) sp,
    .ld s7 (X 23) sp, .ld s8 (X 24) sp, .ld s9 (X 25) sp, .ld s10 (X 26) sp, .ld s11 (X 27) sp,
    .ld t3 (X 28) sp, .ld t4 (X 29) sp, .ld t5 (X 30) sp, .ld t6 (X 31) sp,
    .la t0 .user_trap_entry,
    .csrw .stvec t0,
    .ld t0 (X 5) sp,
    .addi sp sp tf_size,
    .csrrw sp .sscratch sp,
    .sret]

def terminate_process : List (Instr Label) :=
  [.csrw .sscratch zero,
    .la t0 .kernel_context,
    .ld ra KCTX_RA t0, .ld gp KCTX_GP t0, .ld tp KCTX_TP t0, .ld s0 (KCTX_S 0) t0,
    .ld s1 (KCTX_S 1) t0, .ld s2 (KCTX_S 2) t0, .ld s3 (KCTX_S 3) t0, .ld s4 (KCTX_S 4) t0,
    .ld s5 (KCTX_S 5) t0, .ld s6 (KCTX_S 6) t0, .ld s7 (KCTX_S 7) t0, .ld s8 (KCTX_S 8) t0,
    .ld s9 (KCTX_S 9) t0, .ld s10 (KCTX_S 10) t0, .ld s11 (KCTX_S 11) t0,
    .ld t1 KCTX_SP t0,
    .mv sp t1,
    .ret]

/-! ### `user.S` -/

/-- How `run_user` and `run_task` begin: the caller's context, then `gp` and
`tp` once more for `user_trap_entry`. -/
def saveContext : List (Instr Label) :=
  [.la t0 .kernel_context,
    .sd ra KCTX_RA t0, .sd sp KCTX_SP t0, .sd gp KCTX_GP t0, .sd tp KCTX_TP t0,
    .sd s0 (KCTX_S 0) t0, .sd s1 (KCTX_S 1) t0, .sd s2 (KCTX_S 2) t0, .sd s3 (KCTX_S 3) t0,
    .sd s4 (KCTX_S 4) t0, .sd s5 (KCTX_S 5) t0, .sd s6 (KCTX_S 6) t0, .sd s7 (KCTX_S 7) t0,
    .sd s8 (KCTX_S 8) t0, .sd s9 (KCTX_S 9) t0, .sd s10 (KCTX_S 10) t0, .sd s11 (KCTX_S 11) t0,
    .la t0 .kernel_gp_saved,
    .sd gp 0 t0,
    .la t0 .kernel_tp_saved,
    .sd tp 0 t0]

def run_user : List (Instr Label) :=
  saveContext ++
  [.la t0 .user_trap_entry,
    .csrw .stvec t0,
    .csrw .sscratch a3,
    .csrw .sepc a1,
    .csrw .sstatus a2,
    .mv t0 a0,
    .mv ra zero, .mv gp zero, .mv tp zero, .mv t1 zero, .mv t2 zero, .mv s0 zero, .mv s1 zero,
    .mv a0 zero, .mv a1 zero, .mv a2 zero, .mv a3 zero, .mv a4 zero, .mv a5 zero, .mv a6 zero,
    .mv a7 zero, .mv s2 zero, .mv s3 zero, .mv s4 zero, .mv s5 zero, .mv s6 zero, .mv s7 zero,
    .mv s8 zero, .mv s9 zero, .mv s10 zero, .mv s11 zero, .mv t3 zero, .mv t4 zero, .mv t5 zero,
    .mv t6 zero,
    .mv sp t0,
    .mv t0 zero,
    .sret]

def run_task : List (Instr Label) :=
  saveContext ++
  [.mv sp a0,
    .j .restore_user_frame]

/-- What lies at each label: a routine falls through into the one after it. The
Rust handlers are not part of these files. -/
def program : Label → List (Instr Label)
  | .trap_entry => trap_entry ++ trap_entry_1
  | .trap_entry_1 => trap_entry_1
  | .user_trap_entry => user_trap_entry ++ restore_user_frame
  | .restore_user_frame => restore_user_frame
  | .terminate_process => terminate_process
  | .run_user => run_user
  | .run_task => run_task
  | .rust_trap_handler | .rust_user_trap_handler => []
  | .kernel_context | .kernel_gp_saved | .kernel_tp_saved => []

/-! ### Traps in a row -/

/-- Registers a C function gives back as it found them. -/
def calleeSaved : List Reg := [sp, gp, tp, s0, s1, s2, s3, s4, s5, s6, s7, s8, s9, s10, s11]

/-- The Rust handler between its call and its return: an ordinary C function
that does not rewrite the trap vector. -/
structure CAbi (called answered : Cpu) : Prop where
  regs : ∀ r ∈ calleeSaved, answered.get r = called.get r
  vector : answered.csr .stvec = called.csr .stvec

/-- One trap, from the `sret` before it to where its answer leads. -/
structure Crossing where
  before : Cpu
  interrupted : Cpu
  called : Cpu
  answered : Cpu
  after : Cpu

/-- User code runs, or the caller of `run_user` or `run_task` does again. -/
inductive Mode where
  | user
  | back
  deriving DecidableEq

/-- User code may do anything but touch the supervisor's CSRs. Its trap goes to
the routine the vector points to, and from the handler's return on the code
behind the call decides. -/
def Crosses (addr : Label → Word) (s : Mode × Cpu) (c : Crossing) (s' : Mode × Cpu) : Prop :=
  s = (.user, c.before) ∧ c.interrupted.csr .sscratch = c.before.csr .sscratch ∧
    c.interrupted.csr .stvec = c.before.csr .stvec ∧
    ∃ entry rest exit, c.interrupted.csr .stvec = addr entry ∧
      Flows addr program (program entry) c.interrupted c.called (.call .rust_user_trap_handler rest) ∧
      CAbi c.called c.answered ∧ Flows addr program rest c.answered c.after exit ∧
      ((exit = .sret ∧ s' = (.user, c.after)) ∨ (exit = .ret ∧ s' = (.back, c.after)))

end Neonos.Assembly
