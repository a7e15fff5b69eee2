import Neonos.Model.LessonRuns
import Neonos.ProcessRuns

/-! One step of a lesson after the other, each rule with the goal still ahead:
instructions of user code, a trap that resumes it and a trap that ends it. -/
namespace Neonos.LessonRuns
open Lesson10 UserPrograms ByteMemory Rv64Linked Rv64User
open Scheduler (User Machine exceptionCause)

/-- The system with user code at a place, after these traps. -/
def System.running (s : System κ) (traps : List Trap) (c : Core) : System κ :=
  { s with user := some (traps, ⟨c.2.x, c.2.zero, c.1, c.2.mem⟩) }

/-- The hart of user code as the scheduler's model of user code has it. -/
def userOf (c : Core) : User Memory := ⟨c.2.x, c.2.zero, c.1, c.2.mem⟩

section machine
variable {code : Code Label} {c d : Core}

/-- What the code does is what the machine in user mode does. -/
theorem machine_steps (elsewhere : Machine Memory) (step : code.Steps c d) :
    machine code elsewhere ⟨c.2.x, c.2.zero, c.1, c.2.mem⟩ = .next ⟨d.2.x, d.2.zero, d.1, d.2.mem⟩ := by
  unfold Code.Steps Code.step at step
  unfold machine
  cases here : code.fetch c.1 with
  | none => simp [here] at step
  | some instruction =>
    obtain ⟨op, next⟩ := instruction
    simp only [here] at step
    split at step
    · cases step
    · rename_i plain
      cases step
      cases op with
      | plain i => cases i <;> first | rfl | exact absurd rfl plain
      | _ => rfl

theorem machine_ecall (elsewhere : Machine Memory) (here : code.fetch c.1 = some (.ecall, next)) :
    machine code elsewhere ⟨c.2.x, c.2.zero, c.1, c.2.mem⟩ = .trap 8 := by
  unfold machine
  simp only [here]

theorem machine_illegal (elsewhere : Machine Memory) (here : code.fetch c.1 = some (.illegal, next)) :
    machine code elsewhere ⟨c.2.x, c.2.zero, c.1, c.2.mem⟩ = .trap 2 := by
  unfold machine
  simp only [here]

end machine

section rules
variable {l : Lesson κ ε} {goal : System κ → Prop} {s : System κ} {traps : List Trap} {c : Core}

/-- A new process. -/
theorem Lesson.enters (managing : s.user = none) (more : s.ended.length < l.runs)
    (one : l.one s.ended.length [] s.kernel = .ok (.entered process, k)) (has : process.user = some runtime)
    (after : ∀ stack, Inevitably l.Step goal { s with user := some ([], started runtime stack) }) :
    Inevitably l.Step goal s := by
  refine .later (.enter managing more one has fun _ => 0) fun t step => ?_
  cases step with
  | enter _ _ one' has' stack =>
    cases one.symm.trans one'
    cases has.symm.trans has'
    exact after stack
  | next running | resume running | finish running => exact absurd (managing.symm.trans running) (by simp)

/-- Instructions of user code up to its next trap. -/
theorem Lesson.computes (reaches : Inevitably l.image.code.Steps (fun c => Inevitably l.Step goal (s.running traps c)) c) :
    Inevitably l.Step goal (s.running traps c) := by
  induction reaches with
  | now here => exact here
  | @later c d going _ ih =>
    have ran := machine_steps l.elsewhere going
    refine .later (.next rfl ran) fun t step => ?_
    cases step with
    | enter managing => cases managing
    | next running other =>
      cases running
      cases ran.symm.trans other
      exact ih d going
    | resume running trap | finish running trap =>
      cases running
      cases ran.symm.trans trap

/-- A trap that the handler answers with a frame to resume. -/
theorem Lesson.resumes {u : User Memory} (running : s.user = some (traps, u))
    (trap : machine l.image.code l.elsewhere u = .trap cause)
    (answer : ∀ sstatus stval, sstatus &&& SSTATUS_SPP = 0 → ∃ frame k,
      l.one s.ended.length (traps ++ [raised l.layout u sstatus cause stval]) s.kernel = .ok (.resumed frame, k) ∧
      Inevitably l.Step goal { s with
        console := s.console ++ printed (raised l.layout u sstatus cause stval).frame
        user := some (traps ++ [raised l.layout u sstatus cause stval], .load frame u.stack) }) :
    Inevitably l.Step goal s := by
  obtain ⟨frame, k, one, -⟩ := answer 0 0 rfl
  refine .later (.resume running trap 0 0 rfl one) fun t step => ?_
  cases step with
  | enter managing => exact absurd (managing.symm.trans running) (by simp)
  | next running' ran =>
    cases running.symm.trans running'
    cases trap.symm.trans ran
  | resume running' trap' sstatus' stval' mode one' =>
    cases running.symm.trans running'
    cases trap.symm.trans trap'
    obtain ⟨frame, k, one, after⟩ := answer sstatus' stval' mode
    cases one.symm.trans one'
    exact after
  | finish running' trap' sstatus' stval' mode one' =>
    cases running.symm.trans running'
    cases trap.symm.trans trap'
    obtain ⟨frame, k, one, -⟩ := answer sstatus' stval' mode
    cases one.symm.trans one'

/-- A trap that ends the process. -/
theorem Lesson.finishes {u : User Memory} (running : s.user = some (traps, u))
    (trap : machine l.image.code l.elsewhere u = .trap cause)
    (answer : ∀ sstatus stval, sstatus &&& SSTATUS_SPP = 0 → ∃ process k,
      l.one s.ended.length (traps ++ [raised l.layout u sstatus cause stval]) s.kernel = .ok (.ended process, k) ∧
      Inevitably l.Step goal
        ⟨k, s.ended ++ [process], s.console ++ printed (raised l.layout u sstatus cause stval).frame, none⟩) :
    Inevitably l.Step goal s := by
  obtain ⟨process, k, one, -⟩ := answer 0 0 rfl
  refine .later (.finish running trap 0 0 rfl one) fun t step => ?_
  cases step with
  | enter managing => exact absurd (managing.symm.trans running) (by simp)
  | next running' ran =>
    cases running.symm.trans running'
    cases trap.symm.trans ran
  | resume running' trap' sstatus' stval' mode one' =>
    cases running.symm.trans running'
    cases trap.symm.trans trap'
    obtain ⟨process, k, one, -⟩ := answer sstatus' stval' mode
    cases one.symm.trans one'
  | finish running' trap' sstatus' stval' mode one' =>
    cases running.symm.trans running'
    cases trap.symm.trans trap'
    obtain ⟨process, k, one, after⟩ := answer sstatus' stval' mode
    cases one.symm.trans one'
    exact after

end rules

/-! ### What a process is resumed with -/

/-- A frame that `apply_return` has rewritten resumes behind the call, with its result. -/
theorem load_resumed {u : User Memory} {frame : TrapFrame} (resumed : Resumed (u.save sstatus scause stval) frame result)
    (stack : Memory) (room : u.pc.toNat + 4 < 2 ^ 64) :
    User.load frame stack = ⟨(u.answered (BitVec.ofInt 64 result)).x, (u.answered (BitVec.ofInt 64 result)).zero,
      u.pc + 4, stack⟩ := by
  have registers : Function.update frame.x 0 0 = Function.update u.x 10 (BitVec.ofInt 64 result) := by
    funext i
    by_cases zero : i = 0
    · subst zero
      rw [Function.update_self, Function.update_of_ne (by decide), u.zero]
    · rw [Function.update_of_ne zero]
      by_cases a0 : i = 10
      · subst a0
        rw [Function.update_self, resumed.result]
      · rw [Function.update_of_ne a0, resumed.registers i a0]
        rfl
  have pc : frame.sepc = u.pc + 4 := by
    apply BitVec.eq_of_toNat_eq
    rw [resumed.sepc, BitVec.toNat_add]
    exact (Nat.mod_eq_of_lt room).symm
  unfold User.load User.answered
  simp only [registers, pc]

end Neonos.LessonRuns
