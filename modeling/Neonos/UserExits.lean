import Neonos.TaskIsolation
import Neonos.UserChecksum

/-! A batch over the user program. The handler keeps the promises that the
program relies on, so a task of the scheduler ends with exit code 0 or not yet:
no batch stops at the assertion on exit codes or at the one on faults. -/
namespace Neonos.UserScheduler
open Rv64.Reg Rv64User ByteMemory Scheduler Runs

/-- What a call returns under `handle`, unless it is an exit. -/
def supervisor (number arg0 : Word) : Option Word :=
  if number = 3 then some 0
  else
    match Syscall.dispatch number arg0 with
    | .ret value => some (BitVec.ofInt 64 value)
    | .exit _ => none

theorem supervisor_reply (u : User Memory) : u.reply = supervisor (u.x a7) (u.x a0) := rfl

theorem supervisor_kept {marker : Word} (ascii : marker ≤ 0x7f) : Kept supervisor marker := by
  have valid : ¬ (0x7f < marker) := BitVec.not_lt.mpr ascii
  have dispatched : Syscall.dispatch 1 marker = .ret 0 := by
    unfold Syscall.dispatch
    rw [if_pos (show (1 : Word) = Syscall.SYSCALL_PUTCHAR from rfl), if_neg valid]
  refine ⟨?_, fun arg0 => rfl, fun arg0 => rfl, rfl⟩
  unfold supervisor
  rw [if_neg (by decide), dispatched]
  rfl

theorem solo_run {machine : Machine Memory} (solo : Solo machine u calls v) :
    ∃ pcs, Run (Proceeds machine supervisor) u pcs v := by
  obtain ⟨events, run, -⟩ := solo
  induction run with
  | nil => exact ⟨[], .nil⟩
  | @snoc events w e v _ last ih =>
    obtain ⟨pcs, before⟩ := ih
    have here : Resumed w w := ⟨rfl, rfl, rfl⟩
    cases last with
    | next step => exact ⟨_, .snoc before (.next here step)⟩
    | call ecall returns => exact ⟨_, .snoc before (.call here ecall returns ⟨rfl, rfl, rfl⟩)⟩

/-- A program that has come to its end alone has come to its good one. -/
theorem finishes_well (p : Placement) (elsewhere : Machine Memory) {u : User Memory} (ascii : u.x s0 ≤ 0x7f)
    (positive : 1 ≤ n) (fits : n < 2 ^ 32) (modes : m ≤ 3) (entry : u.pc = p.at_ .sched_entry)
    (limit : u.x s1 = BitVec.ofNat 64 n) (kind : u.x s4 = BitVec.ofNat 64 m)
    (solo : Solo (p.machine elsewhere) u calls v) (finishes : Finishes (p.machine elsewhere) v) :
    p.machine elsewhere v = .trap 8 ∧ Syscall.dispatch (v.x a7) (v.x a0) = .exit 0 := by
  obtain ⟨whole, inside, -, -, follows⟩ :=
    runs_on p elsewhere (supervisor_kept ascii) positive fits modes entry limit kind
  obtain ⟨pcs, run⟩ := solo_run solo
  obtain ⟨before, rest, split, -, ⟨k, early, here⟩, more, last⟩ := follows pcs v run
  by_cases done : rest = []
  · exact (last done).2
  rcases more done with ⟨w, next⟩ | ⟨ecall, result, answered⟩
  · rcases finishes with ⟨trap, -⟩ | trap
    · exact absurd (next.symm.trans trap) (by simp)
    · exact absurd (next.symm.trans trap) (by simp)
  · rcases finishes with ⟨-, silent⟩ | trap
    · rw [supervisor_reply, answered] at silent
      cases silent
    · rw [ecall] at trap
      exact absurd (Outcome.trap.inj trap) (by decide)

/-- A task starts with its letter, its iterations and its mode. -/
theorem starts_with (b : Batch) (i : Fin b.specs.length) (stack : Memory) :
    (User.load (b.firstFrame i) stack).x s0 = BitVec.ofNat 64 (0x41 + i) ∧
      (User.load (b.firstFrame i) stack).x s1 = BitVec.ofNat 64 (b.specs.get i).iterations ∧
      (User.load (b.firstFrame i) stack).x s4 = BitVec.ofNat 64 (b.specs.get i).mode := by
  refine ⟨?_, ?_, ?_⟩ <;> simp [User.load, Batch.firstFrame, TrapFrame.setX]

/-- No task of a batch that runs the user program ends with another code than 0
or with a fault, in whatever order the tasks take their turns. -/
theorem tasks_exit_well (b : Batch) (p : Placement) (elsewhere : Machine Memory)
    (run : b.Executes machines memories turns s) (i : Fin b.specs.length)
    (program : machines (b.task i) = p.machine elsewhere) (placed : b.image.schedEntry = p.at_ .sched_entry)
    (sound : (b.specs.get i).fault = false) (modes : (b.specs.get i).mode ≤ 3)
    (positive : 1 ≤ (b.specs.get i).iterations) (fits : (b.specs.get i).iterations < 2 ^ 32)
    (member : t ∈ turns) (mine : t.task = b.task i) :
    (∀ cause, t.reason ≠ .fault cause) ∧ ∀ code, t.reason = .exit code → code = 0 := by
  obtain ⟨first, started, run⟩ := run
  obtain ⟨before, m, m', _, -, earlier, ⟨step, v, trapped, handled, -⟩, -⟩ := run.taken member
  obtain ⟨coherent, -, solo, -⟩ := Batch.executes_isolated ⟨first, started, earlier⟩ i
  have entered : t.entered = (m.head.loop.tasks (b.task i)).frame := by
    rw [← mine]
    exact (Batch.step_view coherent step).frames.1
  obtain ⟨letter, limit, kind⟩ := starts_with b i (memories (b.task i))
  have ascii : (User.load (b.firstFrame i) (memories (b.task i))).x s0 ≤ 0x7f := by
    have few : b.specs.length ≤ 4 := b.fits
    have small := i.isLt
    rw [letter, BitVec.le_def, BitVec.toNat_ofNat]
    show _ ≤ 127
    omega
  have entry : (User.load (b.firstFrame i) (memories (b.task i))).pc = p.at_ .sched_entry := by
    rw [← placed]
    exact if_neg (by rw [sound]; decide)
  rw [program] at solo
  have well (w : User Memory) (ran : Computes (p.machine elsewhere)
      (.load (m.head.loop.tasks (b.task i)).frame (m.memories (b.task i))) w)
      (finishes : Finishes (p.machine elsewhere) w) :=
    finishes_well p elsewhere ascii positive fits modes entry limit kind (solo.computes ran) finishes
  obtain ⟨rewritten, -, -⟩ := handle_ok handled
  rw [mine, entered, program] at trapped
  show (∀ cause, t.pass.event.reason ≠ .fault cause) ∧ ∀ code, t.pass.event.reason = .exit code → code = 0
  generalize t.pass.event.reason = reason at rewritten
  generalize t.raw = raw at trapped rewritten
  generalize t.pass.event.frame = frame at rewritten
  cases trapped with
  | @timer sstatus stval ran =>
    have noException : TIMER_INTERRUPT ≠ 8 ∧ TIMER_INTERRUPT ≠ 2 := by decide
    cases rewritten with
    | timer | yield | syscall => exact ⟨by simp, by simp⟩
    | exit ecall => exact absurd ecall noException.1
    | fault illegal => exact absurd illegal noException.2
  | @exception cause sstatus stval ran trap =>
    obtain ⟨-, ecall_, illegal_⟩ := exception_cause cause
    cases rewritten with
    | timer | yield | syscall => exact ⟨by simp, by simp⟩
    | exit ecall number ends =>
      have now : p.machine elsewhere v = .trap 8 := trap.trans (congrArg _ (ecall_.mp ecall))
      have good := (well v ran (.inl ⟨now, User.reply_exit number ends⟩)).2
      obtain rfl := Syscall.SyscallOutcome.exit.inj (ends.symm.trans good)
      exact ⟨by simp, by simp⟩
    | fault illegal =>
      have now : p.machine elsewhere v = .trap 2 := trap.trans (congrArg _ (illegal_.mp illegal))
      have good := (well v ran (.inr now)).1
      exact absurd (Outcome.trap.inj (now.symm.trans good)) (by decide)

end Neonos.UserScheduler
