import Mathlib
import Neonos.Model.UserTask
import Neonos.ReadyInvariant

/-! Interleaving does not change what a task computes. Between two of its own
turns nothing touches a task's frame or its private stack, and the handler
rewrites a trap frame only as the kind of trap allows. So each turn continues
the one run the task has when it is alone. -/
namespace Neonos.Scheduler
open Runs

/-! ### The handler's rewrite -/

/-- What the handler may do to a trap frame, by the reason it reports. -/
inductive Rewritten (raw : TrapFrame) : Reason → TrapFrame → Prop where
  | timer (interrupt : raw.scause = TIMER_INTERRUPT) :
      Rewritten raw .timer { raw with sstatus := userStatus raw.sstatus }
  | yield (ecall : raw.scause = 8) (number : raw.x 17 = 3) :
      Rewritten raw .yield { raw.setX 10 0 with
        sepc := raw.sepc + 4, sstatus := userStatus raw.sstatus }
  | syscall (ecall : raw.scause = 8) (number : raw.x 17 ≠ 3)
      (returns : Syscall.dispatch (raw.x 17) (raw.x 10) = .ret value) :
      Rewritten raw .syscall { raw.setX 10 (BitVec.ofInt 64 value) with
        sepc := raw.sepc + 4, sstatus := userStatus raw.sstatus }
  | exit (ecall : raw.scause = 8) (number : raw.x 17 ≠ 3)
      (ends : Syscall.dispatch (raw.x 17) (raw.x 10) = .exit code) :
      Rewritten raw (.exit code.toNat) { raw with sstatus := userStatus raw.sstatus }
  | fault (illegal : raw.scause = 2) :
      Rewritten raw (.fault 2) { raw with sstatus := userStatus raw.sstatus }

theorem nextPc_ok (ran : nextPc sepc = .ok next) : next = sepc + 4 := by
  unfold nextPc at ran
  split at ran <;> cases ran
  rfl

/-- The top bit and what is below it make the whole cause. -/
theorem timer_cause {scause : Word} (top : scause >>> 63 ≠ 0)
    (below : scause &&& ~~~(1 <<< 63 : Word) = 5) : scause = TIMER_INTERRUPT := by
  have bit : ((1 <<< 63 : Nat) : Word) = BitVec.twoPow 64 63 := by decide
  have set_ : scause.getLsbD 63 = true := by
    by_contra off
    have small : scause.toNat < 2 ^ 63 := by
      have msb : scause.msb = false := by simpa [BitVec.msb_eq_getLsbD_last] using off
      have := BitVec.msb_eq_false_iff_two_mul_lt.mp msb
      omega
    apply top
    apply BitVec.eq_of_toNat_eq
    rw [BitVec.toNat_ushiftRight, Nat.shiftRight_eq_div_pow]
    exact Nat.div_eq_of_lt small
  calc
    scause = (scause &&& ~~~((1 <<< 63 : Nat) : Word)) ||| (scause &&& ((1 <<< 63 : Nat) : Word)) := by
      rw [← BitVec.and_or_distrib_left, BitVec.not_or_self, BitVec.and_allOnes]
    _ = 5 ||| BitVec.twoPow 64 63 := by
      rw [below, bit, BitVec.and_twoPow, if_pos set_]
    _ = TIMER_INTERRUPT := by decide

theorem classify_ok {raw frame : TrapFrame} (ran : classify raw = .ok (frame, reason)) :
    Rewritten raw reason { frame with sstatus := userStatus raw.sstatus } ∧
      frame.sstatus = raw.sstatus := by
  unfold classify at ran
  split at ran
  · rename_i top
    split at ran
    · rename_i below
      cases ran
      exact ⟨.timer (timer_cause top below), rfl⟩
    · cases ran
  · split at ran
    · rename_i ecall
      split at ran
      · rename_i number
        obtain ⟨sepc, fits, ran⟩ := bind_ok.mp ran
        cases ran
        obtain rfl := nextPc_ok fits
        exact ⟨.yield ecall number, rfl⟩
      · rename_i number
        split at ran
        · rename_i value returns
          obtain ⟨sepc, fits, ran⟩ := bind_ok.mp ran
          cases ran
          obtain rfl := nextPc_ok fits
          exact ⟨.syscall ecall number returns, rfl⟩
        · rename_i code ends
          cases ran
          exact ⟨.exit ecall number ends, rfl⟩
    · split at ran
      · rename_i illegal
        obtain ⟨rfl, rfl⟩ := Prod.mk.inj (Except.ok.inj ran)
        have code : raw.scause.toNat = 2 := by rw [illegal]; rfl
        rw [code]
        exact ⟨.fault illegal, rfl⟩
      · cases ran

theorem handle_ok {raw : TrapFrame} {event : Exchange}
    (ran : handle image now expected address raw = .ok event) :
    Rewritten raw event.reason event.frame ∧ event.time = now ∧ event.expected = expected := by
  unfold handle at ran
  split at ran
  · cases ran
  split at ran
  · cases ran
  split at ran
  · cases ran
  obtain ⟨⟨frame, reason⟩, classified, ran⟩ := bind_ok.mp ran
  cases ran
  obtain ⟨rewritten, same⟩ := classify_ok classified
  exact ⟨same ▸ rewritten, rfl, rfl⟩

/-- A classified trap of the task on its own stack, in the program's code, is taken. -/
theorem handle_classified {raw : TrapFrame} (classified : classify raw = .ok (frame, reason))
    (user : raw.sstatus &&& SSTATUS_SPP = 0)
    (inside : image.schedCodeStart ≤ raw.sepc ∧ raw.sepc < image.schedCodeEnd) (now : Nat) (address : Word) :
    handle image now address address raw =
      .ok ⟨address, { frame with sstatus := userStatus frame.sstatus }, reason, now⟩ := by
  unfold handle
  rw [if_neg (not_not.mpr rfl), if_neg (not_not.mpr user), if_neg (not_not.mpr inside), classified]
  rfl

theorem classify_timer {raw : TrapFrame} (interrupt : raw.scause = TIMER_INTERRUPT) :
    classify raw = .ok (raw, .timer) := by
  have top : TIMER_INTERRUPT >>> 63 ≠ 0 := by decide
  have below : TIMER_INTERRUPT &&& ~~~(1 <<< 63 : Word) = 5 := by decide
  unfold classify
  rw [interrupt, if_pos top, if_pos below]

theorem classify_exit {raw : TrapFrame} (ecall : raw.scause = 8) (other : raw.x 17 ≠ 3)
    (exits : Syscall.dispatch (raw.x 17) (raw.x 10) = .exit code) : classify raw = .ok (raw, .exit code.toNat) := by
  have top : ¬ (8 : Word) >>> 63 ≠ 0 := by decide
  unfold classify
  rw [ecall, if_neg top, if_pos rfl, if_neg other, exits]

/-! ### One turn against the task alone -/

theorem exception_cause (cause : BitVec 63) : exceptionCause cause ≠ TIMER_INTERRUPT ∧
    (exceptionCause cause = 8 ↔ cause = 8) ∧ (exceptionCause cause = 2 ↔ cause = 2) := by
  have small : (exceptionCause cause).toNat = cause.toNat := by
    unfold exceptionCause
    rw [BitVec.toNat_setWidth]
    exact Nat.mod_eq_of_lt (by omega)
  have code (n : Nat) (fits : n < 2 ^ 63) :
      exceptionCause cause = BitVec.ofNat 64 n ↔ cause = BitVec.ofNat 63 n := by
    rw [← BitVec.toNat_inj, ← BitVec.toNat_inj, small, BitVec.toNat_ofNat, BitVec.toNat_ofNat,
      Nat.mod_eq_of_lt (by omega), Nat.mod_eq_of_lt fits]
  refine ⟨fun timer => ?_, code 8 (by decide), code 2 (by decide)⟩
  have large : (exceptionCause cause).toNat = 2 ^ 63 + 5 := by rw [timer]; rfl
  omega

namespace User

@[ext] theorem ext {u v : User μ} (x : u.x = v.x) (pc : u.pc = v.pc) (stack : u.stack = v.stack) :
    u = v := by
  cases u
  cases v
  simp_all

theorem reply_ret {u : User μ} (number : u.x 17 ≠ 3)
    (returns : Syscall.dispatch (u.x 17) (u.x 10) = .ret value) :
    u.reply = some (BitVec.ofInt 64 value) := by
  unfold reply
  rw [if_neg number, returns]

theorem reply_exit {u : User μ} (number : u.x 17 ≠ 3)
    (ends : Syscall.dispatch (u.x 17) (u.x 10) = .exit code) : u.reply = none := by
  unfold reply
  rw [if_neg number, ends]

/-- Saving and loading again is no step at all. -/
theorem load_save (u : User μ) (sstatus status scause stval : Word) :
    load { u.save sstatus scause stval with sstatus := status } u.stack = u := by
  apply ext
  · funext k
    by_cases zero : k = 0
    · subst zero
      simp [load, u.zero]
    · simp [load, save, zero]
  · rfl
  · rfl

/-- A result in `a0` past the `ecall` is the answered state. -/
theorem load_answer (u : User μ) (sstatus status scause stval result : Word) :
    load { (u.save sstatus scause stval).setX 10 result with
      sepc := u.pc + 4, sstatus := status } u.stack = u.answered result := by
  apply ext
  · funext k
    by_cases zero : k = 0
    · subst zero
      simp [load, (u.answered result).zero]
    · simp [load, save, TrapFrame.setX, answered, zero]
  · rfl
  · rfl

end User

/-- A user interval followed by the handler's answer, as the task sees it. -/
inductive Continues (machine : Machine μ) (u : User μ) (raw : TrapFrame) :
    Reason → TrapFrame → User μ → Prop where
  | timer (ran : Computes machine u w) : Continues machine u raw .timer frame w
  | call (ran : Computes machine u v) (ecall : machine v = .trap 8)
      (returns : v.reply = some result) (how : reason = .yield ∨ reason = .syscall)
      (number : raw.x 17 = v.x 17) (arg0 : raw.x 10 = v.x 10) (result_ : frame.x 10 = result) :
      Continues machine u raw reason frame (v.answered result)
  | finish (ran : Computes machine u w) (how : Finishes machine w)
      (reason_ : (∃ code, reason = .exit code) ∨ reason = .fault 2) :
      Continues machine u raw reason frame w

theorem continues {machine : Machine μ} {raw frame : TrapFrame}
    (trapped : Trapped machine u v raw) (rewritten : Rewritten raw reason frame) :
    Continues machine u raw reason frame (.load frame v.stack) := by
  cases trapped with
  | @timer sstatus stval ran =>
    have noException : TIMER_INTERRUPT ≠ 8 ∧ TIMER_INTERRUPT ≠ 2 := by decide
    cases rewritten with
    | timer interrupt =>
      rw [v.load_save]
      exact .timer ran
    | yield ecall | syscall ecall | exit ecall => exact absurd ecall noException.1
    | fault illegal => exact absurd illegal noException.2
  | @exception cause sstatus stval ran trap =>
    obtain ⟨notTimer, ecall_, illegal_⟩ := exception_cause cause
    cases rewritten with
    | timer interrupt => exact absurd interrupt notTimer
    | yield ecall number =>
      have now : machine v = .trap 8 := trap.trans (congrArg _ (ecall_.mp ecall))
      have answer := v.load_answer sstatus (userStatus sstatus) (exceptionCause cause) stval 0
      exact answer ▸ .call ran now (if_pos number) (.inl rfl) rfl rfl (by simp [TrapFrame.setX])
    | @syscall value ecall number returns =>
      have now : machine v = .trap 8 := trap.trans (congrArg _ (ecall_.mp ecall))
      have answer := v.load_answer sstatus (userStatus sstatus) (exceptionCause cause) stval
        (BitVec.ofInt 64 value)
      exact answer ▸ .call ran now (User.reply_ret number returns) (.inr rfl) rfl rfl
        (by simp [TrapFrame.setX])
    | exit ecall number ends =>
      have now : machine v = .trap 8 := trap.trans (congrArg _ (ecall_.mp ecall))
      rw [v.load_save]
      exact .finish ran (.inl ⟨now, User.reply_exit number ends⟩) (.inl ⟨_, rfl⟩)
    | fault illegal =>
      rw [v.load_save]
      exact .finish ran (.inr (trap.trans (congrArg _ (illegal_.mp illegal)))) (.inr rfl)

/-! ### The task alone has one run -/

theorem alone_deterministic {machine : Machine μ} (u : User μ) (e e' : Option Call) (v v' : User μ)
    (first : Alone machine u e v) (second : Alone machine u e' v') : e = e' ∧ v = v' := by
  cases first with
  | next step =>
    cases second with
    | next step' => exact ⟨rfl, Outcome.next.inj (step.symm.trans step')⟩
    | call ecall => simp [step] at ecall
  | call ecall returns =>
    cases second with
    | next step => simp [ecall] at step
    | call ecall' returns' =>
      obtain rfl := Option.some.inj (returns.symm.trans returns')
      exact ⟨rfl, rfl⟩

theorem finishes_stuck {machine : Machine μ} (stopped : Finishes machine v) (e : Option Call)
    (w : User μ) : ¬ Alone machine v e w := by
  intro step
  cases step with
  | next step =>
    rcases stopped with ⟨ecall, -⟩ | fault
    · simp [ecall] at step
    · simp [fault] at step
  | call ecall returns =>
    rcases stopped with ⟨-, none_⟩ | fault
    · simp [none_] at returns
    · rw [ecall] at fault
      exact absurd (Outcome.trap.inj fault) (by decide)

theorem Solo.once {machine : Machine μ} (run : Solo machine u calls v)
    (run' : Solo machine u calls' v') (stopped : Finishes machine v) (stopped' : Finishes machine v') :
    calls = calls' ∧ v = v' := by
  obtain ⟨events, run, rfl⟩ := run
  obtain ⟨events', run', rfl⟩ := run'
  obtain ⟨rfl, same⟩ := run.stops_once alone_deterministic run' (finishes_stuck stopped)
    (finishes_stuck stopped')
  exact ⟨rfl, same⟩

theorem Solo.computes {machine : Machine μ} (run : Solo machine u calls v)
    (ran : Computes machine v w) : Solo machine u calls w := by
  induction ran with
  | refl => exact run
  | tail _ step ih =>
    obtain ⟨events, before, same⟩ := ih
    exact ⟨events ++ [none], .snoc before (.next step), by simp [List.reduceOption_append, same]⟩

theorem Solo.answers {machine : Machine μ} (run : Solo machine u calls v)
    (ecall : machine v = .trap 8) (returns : v.reply = some result) :
    Solo machine u (calls ++ [⟨v.x 17, v.x 10, result⟩]) (v.answered result) := by
  obtain ⟨events, run, rfl⟩ := run
  exact ⟨_, .snoc run (.call ecall returns), by simp [List.reduceOption_append]⟩

/-! ### All turns of one task -/

/-- The turns of one task, in order. -/
def own (id : TaskId) (turns : List Turn) : List Turn := turns.filter fun t => t.task = id

/-- The system call a trap was, if it returns. -/
def returned (raw : TrapFrame) (reason : Reason) (left : TrapFrame) : Option Call :=
  match reason with
  | .yield | .syscall => some ⟨raw.x 17, raw.x 10, left.x 10⟩
  | _ => none

def Turn.call (t : Turn) : Option Call := returned t.raw t.reason t.left

/-- The system calls of one task, with arguments and results. -/
def ownCalls (id : TaskId) (turns : List Turn) : List Call := (own id turns).filterMap Turn.call

/-- A turn takes the solo run further, to an exit or a fault when it reports one. -/
theorem Continues.solo {machine : Machine μ} {raw frame : TrapFrame}
    (further : Continues machine u raw reason frame w) (before : Solo machine u₀ calls u) :
    Solo machine u₀ (calls ++ (returned raw reason frame).toList) w ∧
      ((∃ code, reason = .exit code) ∨ reason = .fault 2 → Finishes machine w) := by
  cases further with
  | timer ran => exact ⟨by simpa [returned] using before.computes ran, by simp⟩
  | call ran ecall returns how number arg0 result =>
    have answer := (before.computes ran).answers ecall returns
    rcases how with rfl | rfl
    · exact ⟨by simpa [returned, number, arg0, result] using answer, by simp⟩
    · exact ⟨by simpa [returned, number, arg0, result] using answer, by simp⟩
  | finish ran how ended =>
    have silent : returned raw reason frame = none := by
      rcases ended with ⟨code, rfl⟩ | rfl
      · rfl
      · rfl
    exact ⟨by simpa [silent] using before.computes ran, fun _ => how⟩

theorem own_snoc (id : TaskId) (turns : List Turn) (t : Turn) :
    own id (turns ++ [t]) = if t.task = id then own id turns ++ [t] else own id turns := by
  by_cases mine : t.task = id <;> simp [own, mine]

namespace Batch
variable {b : Batch} {h h' : Head} {p : Pass}

theorem risen_frame (b : Batch) (r : Readings) (s : Loop) (i : TaskId) :
    (b.risen r s i).frame = (s.tasks i).frame := by
  by_cases due : b.BoostDue r s
  · by_cases active : b.Boosted i (s.tasks i)
    · simp [risen, due, lifted, lift, active, Task.refreshed]
    · simp [risen, due, lifted, lift, active]
  · simp [risen, due]

/-- A pass enters its task with the frame the table held, stores the frame of
the mailbox for it, and touches no other frame and no other state. -/
theorem Passed.frames (passed : b.Passed h p h') :
    p.entry.slots p.task = (h.loop.tasks p.task).frame ∧
      (h'.loop.tasks p.task).frame = p.event.frame ∧
      ∀ j, j ≠ p.task → (h'.loop.tasks j).frame = (h.loop.tasks j).frame ∧
        (h'.loop.tasks j).state = (h.loop.tasks j).state := by
  obtain ⟨t, settled⟩ := passed.settled
  rw [passed.after]
  refine ⟨?_, ?_, fun j different => ?_⟩
  · rw [passed.entered.slot, Function.update_self, ← b.risen_frame p.readings h.loop p.task]
    rcases passed.entered.choice with ⟨-, tasks, -⟩ | ⟨-, -, tasks, -⟩
    · rw [tasks]
    · rw [tasks, Function.update_self]
      rfl
  · rw [settled.tasks, Function.update_self]
    exact settled.frame
  · rw [(passed.other different).1]
    exact ⟨b.risen_frame p.readings h.loop j, (b.risen_state p.readings h.loop j).1⟩

/-- Only an exit or a fault ends a task. -/
theorem Passed.ends (passed : b.Passed h p h') (stopped : (h'.loop.tasks p.task).state = .done) :
    b.Ends p.task p.event.reason := by
  obtain ⟨t, settled⟩ := passed.settled
  rw [passed.after, settled.tasks, Function.update_self] at stopped
  have running : (p.entry.tasks p.task).state = .running :=
    (passed.entry.running p.task).mp passed.entered.current
  cases settled.fate with
  | ended how => exact how
  | requeued state =>
    rw [state] at stopped
    cases stopped
  | kept state =>
    rw [state] at stopped
    exact absurd (running.symm.trans stopped) (by simp)

/-- What the turns of a task so far have to do with its solo run. -/
structure Isolated (b : Batch) (machine : Machine μ) (stack : μ) (i : Fin b.specs.length)
    (turns : List Turn) (s : System μ) : Prop where
  line : (own (b.task i) turns).map Turn.entered ++ [(s.head.loop.tasks (b.task i)).frame] =
    b.firstFrame i :: (own (b.task i) turns).map Turn.left
  solo : Solo machine (.load (b.firstFrame i) stack) (ownCalls (b.task i) turns)
    (.load (s.head.loop.tasks (b.task i)).frame (s.memories (b.task i)))
  stopped : (s.head.loop.tasks (b.task i)).state = .done →
    Finishes machine (.load (s.head.loop.tasks (b.task i)).frame (s.memories (b.task i)))

variable {machines : TaskId → Machine μ} {memories : TaskId → μ} {s s' : System μ}
  {turns : List Turn} {t : Turn}

theorem start_isolated (started : b.start = .ok first) (machine : Machine μ) (memories : TaskId → μ)
    (i : Fin b.specs.length) :
    b.Isolated machine (memories (b.task i)) i [] ⟨⟨first, b.base⟩, memories⟩ := by
  obtain ⟨first', ran, -, made, -⟩ := start_spec (start_bounded started)
  rw [started] at ran
  cases ran
  have frame : (first.tasks (b.task i)).frame = b.firstFrame i := by rw [made]; rfl
  refine ⟨?_, ?_, ?_⟩
  · simp [own, frame]
  · rw [frame]
    exact ⟨[], .nil, rfl⟩
  · intro stopped
    rw [made] at stopped
    cases stopped

theorem turn_isolated (coherent : Coherent b s.head.loop) (turn : b.Turns machines s t s')
    {i : Fin b.specs.length} (before : b.Isolated (machines (b.task i)) stack i turns s) :
    b.Isolated (machines (b.task i)) stack i (turns ++ [t]) s' := by
  obtain ⟨step, v, trapped, handled, memory⟩ := turn
  have passed := step_view coherent step
  obtain ⟨entered, left, others⟩ := passed.frames
  obtain ⟨line, solo, stopped⟩ := before
  by_cases mine : t.task = b.task i
  · have task : t.pass.task = b.task i := mine
    have frame : (s'.head.loop.tasks (b.task i)).frame = t.left := task ▸ left
    have memory : s'.memories (b.task i) = v.stack := by
      rw [memory, mine, Function.update_self]
    have start : t.entered = (s.head.loop.tasks (b.task i)).frame := by
      rw [← task]
      exact entered
    rw [mine, start] at trapped
    obtain ⟨rewritten, -, -⟩ := handle_ok handled
    obtain ⟨further, finishes⟩ := (continues trapped rewritten).solo solo
    refine ⟨?_, ?_, ?_⟩
    · rw [own_snoc, if_pos mine, List.map_append, List.map_append, frame, List.map_singleton,
        List.map_singleton, start, line]
      rfl
    · have log : ownCalls (b.task i) (turns ++ [t]) = ownCalls (b.task i) turns ++ t.call.toList := by
        rw [ownCalls, own_snoc, if_pos mine, List.filterMap_append]
        cases last : t.call <;> simp [ownCalls, last]
      rw [log, frame, memory]
      exact further
    · rw [frame, memory]
      intro done_
      rw [← task] at done_
      rcases passed.ends done_ with exit | ⟨fault, -⟩
      · exact finishes (.inl ⟨0, exit⟩)
      · exact finishes (.inr fault)
  · have apart : b.task i ≠ t.task := fun same => mine same.symm
    obtain ⟨frame, state⟩ := others (b.task i) apart
    have memory : s'.memories (b.task i) = s.memories (b.task i) := by
      rw [memory, Function.update_of_ne apart]
    refine ⟨?_, ?_, ?_⟩
    · rw [own_snoc, if_neg mine, frame]
      exact line
    · rw [ownCalls, own_snoc, if_neg mine, frame, memory]
      exact solo
    · rw [frame, state, memory]
      exact stopped

theorem executes_isolated (run : b.Executes machines memories turns s) (i : Fin b.specs.length) :
    Coherent b s.head.loop ∧ b.Isolated (machines (b.task i)) (memories (b.task i)) i turns s := by
  obtain ⟨first, started, run⟩ := run
  refine run.records (fun turns s => Coherent b s.head.loop ∧
    b.Isolated (machines (b.task i)) (memories (b.task i)) i turns s) ?_ ?_
  · exact ⟨start_coherent started, start_isolated started _ memories i⟩
  · rintro turns s t s' ⟨coherent, isolated⟩ turn
    exact ⟨step_coherent coherent turn.1, turn_isolated coherent turn isolated⟩

/-- Interleaving does not change what a task computes. Its first turn starts
from the frame built at batch start and each later one from the frame its last
trap stored, as the handler rewrote it. So at every moment the task is where it
would be alone after the same system calls with the same results; and once it
is Done, a solo run to an exit or a fault makes exactly these calls and ends
with exactly these registers. -/
theorem interleaving_invisible (b : Batch) (run : b.Executes machines memories turns s)
    (i : Fin b.specs.length) :
    (∀ k t, (own (b.task i) turns)[k]? = some t →
      (k = 0 → t.entered = b.firstFrame i) ∧ Rewritten t.raw t.reason t.left ∧
        ∀ t', (own (b.task i) turns)[k + 1]? = some t' → t'.entered = t.left) ∧
    Solo (machines (b.task i)) (.load (b.firstFrame i) (memories (b.task i)))
      (ownCalls (b.task i) turns)
      (.load (s.head.loop.tasks (b.task i)).frame (s.memories (b.task i))) ∧
    ((s.head.loop.tasks (b.task i)).state = .done →
      Finishes (machines (b.task i))
        (.load (s.head.loop.tasks (b.task i)).frame (s.memories (b.task i))) ∧
      ∀ calls v, Solo (machines (b.task i)) (.load (b.firstFrame i) (memories (b.task i))) calls v →
        Finishes (machines (b.task i)) v → calls = ownCalls (b.task i) turns ∧
          v = .load (s.head.loop.tasks (b.task i)).frame (s.memories (b.task i))) := by
  obtain ⟨-, line, solo, stopped⟩ := executes_isolated run i
  refine ⟨fun k t here => ⟨?_, ?_, fun t' next => ?_⟩, solo, fun done_ => ⟨stopped done_, ?_⟩⟩
  · rintro rfl
    obtain ⟨inside, same⟩ := List.getElem?_eq_some_iff.mp here
    have first := congrArg (·[0]?) line
    simpa [List.getElem?_append, inside, same] using first
  · have member : t ∈ turns := (List.mem_filter.mp (List.mem_of_getElem? here)).1
    obtain ⟨_, _, run⟩ := run
    obtain ⟨_, _, _, _, -, -, ⟨-, v, -, handled, -⟩, -⟩ := run.taken member
    exact (handle_ok handled).1
  · obtain ⟨inside, same⟩ := List.getElem?_eq_some_iff.mp next
    have later := congrArg (·[k + 1]?) line
    simpa [List.getElem?_append, inside, same, here] using later
  · intro calls v alone finishes
    exact alone.once solo finishes (stopped done_)

end Batch

/-- The registers of a task that asks to exit with code 0. -/
def User.asks (u : User Unit) : User Unit where
  x := Function.update (Function.update u.x 17 2) 10 0
  zero := by rw [Function.update_of_ne (by decide), Function.update_of_ne (by decide), u.zero]
  pc := u.pc
  stack := ()

/-- A task that does so right away. -/
def leaver (u : User Unit) : Outcome Unit := if u.x 17 = 2 then .trap 8 else .next u.asks

theorem User.asks_exit (u : User Unit) : u.asks.x 17 = 2 ∧ u.asks.x 10 = 0 := by
  change Function.update (Function.update u.x 17 2) 10 0 17 = 2 ∧ Function.update (Function.update u.x 17 2) 10 0 10 = 0
  rw [Function.update_of_ne (by decide), Function.update_self, Function.update_self]
  exact ⟨rfl, rfl⟩

theorem leaver_turns {b : Batch} (coherent : Coherent b h.loop) (step : b.Step h p h')
    (frame : (h.loop.tasks p.task).frame = f) (trapped : Trapped leaver (.load f ()) v raw)
    (handled : handle b.image p.event.time (b.image.framePtr p.task) (b.image.framePtr p.task) raw = .ok p.event) :
    b.Turns (fun _ => leaver) ⟨h, fun _ => ()⟩ ⟨p, raw⟩ ⟨h', fun _ => ()⟩ := by
  have passed := Batch.step_view coherent step
  refine ⟨step, v, ?_, ?_, rfl⟩
  · rw [Turn.entered, passed.frames.1, frame]
    exact trapped
  · rw [Turn.task, passed.entered.expected]
    exact handled

/-- The two tasks of the rehearsal. -/
def leaving : Fin (rehearsal .rr).specs.length := ⟨0, by decide⟩
def another : Fin (rehearsal .rr).specs.length := ⟨1, by decide⟩

/-- Where a task of the rehearsal is behind its first instruction. -/
def asking (i : Fin (rehearsal .rr).specs.length) : User Unit := (User.load ((rehearsal .rr).firstFrame i) ()).asks

/-- The mailbox that the handler makes of a trap there. -/
def mailed (i : Fin (rehearsal .rr).specs.length) (scause : Word) (reason : Reason) (time : Nat) : Exchange :=
  ⟨(rehearsal .rr).image.framePtr ((rehearsal .rr).task i), { (asking i).save 0 scause 0 with sstatus := userStatus 0 },
    reason, time⟩

/-- The first task is interrupted between its two instructions, the second one
exits, and then the first one. -/
def interleaved : List (Readings × Exchange) :=
  [(.instant 0 10000, mailed leaving TIMER_INTERRUPT .timer 10000),
    (.instant 10000 15000, mailed another 8 (.exit 0) 15000), (.instant 15000 20000, mailed leaving 8 (.exit 0) 20000)]

theorem asking_first (i : Fin (rehearsal .rr).specs.length) :
    leaver (.load ((rehearsal .rr).firstFrame i) ()) = .next (asking i) := by
  have other : ∀ i, (User.load ((rehearsal .rr).firstFrame i) ()).x 17 ≠ 2 := by decide +kernel
  exact if_neg (other i)

/-- An interrupted task goes on where it was. -/
theorem asking_again (i : Fin (rehearsal .rr).specs.length) (scause : Word) (reason : Reason) (time : Nat) :
    User.load (mailed i scause reason time).frame () = asking i := (asking i).load_save _ _ _ _

theorem asking_exits (i : Fin (rehearsal .rr).specs.length) (ran : Computes leaver u (asking i)) :
    Trapped leaver u (asking i) ((asking i).save 0 8 0) := by
  have ecall : leaver (asking i) = .trap 8 := if_pos (User.asks_exit (.load ((rehearsal .rr).firstFrame i) ())).1
  exact .exception ran ecall

theorem asking_handled (i : Fin (rehearsal .rr).specs.length)
    (classified : classify ((asking i).save 0 scause 0) = .ok ((asking i).save 0 scause 0, reason)) (time : Nat) :
    handle (rehearsal .rr).image time ((rehearsal .rr).image.framePtr ((rehearsal .rr).task i))
      ((rehearsal .rr).image.framePtr ((rehearsal .rr).task i)) ((asking i).save 0 scause 0) =
        .ok (mailed i scause reason time) := by
  have inside : ∀ i, (rehearsal .rr).image.schedCodeStart ≤ (asking i).pc ∧
      (asking i).pc < (rehearsal .rr).image.schedCodeEnd := by decide +kernel
  exact handle_classified classified (show (0 : Word) &&& SSTATUS_SPP = 0 by decide) (inside i) time _

theorem asking_classified (i : Fin (rehearsal .rr).specs.length) :
    classify ((asking i).save 0 8 0) = .ok ((asking i).save 0 8 0, .exit 0) := by
  obtain ⟨number, arg0⟩ : ((asking i).save 0 8 0).x 17 = 2 ∧ ((asking i).save 0 8 0).x 10 = 0 :=
    User.asks_exit (.load ((rehearsal .rr).firstFrame i) ())
  have exits : Syscall.dispatch (((asking i).save 0 8 0).x 17) (((asking i).save 0 8 0).x 10) = .exit 0 := by
    rw [number, arg0]
    decide
  exact classify_exit rfl (by rw [number]; decide) exits

theorem interleaving_invisible_rehearsal : ∃ turns s,
    (rehearsal .rr).Executes (fun _ => leaver) (fun _ => ()) turns s ∧
    turns.map (fun t => (t.task, t.reason)) = [((rehearsal .rr).task leaving, .timer),
      ((rehearsal .rr).task another, .exit 0), ((rehearsal .rr).task leaving, .exit 0)] ∧
    (∀ k t, (own ((rehearsal .rr).task leaving) turns)[k]? = some t →
      (k = 0 → t.entered = (rehearsal .rr).firstFrame leaving) ∧ Rewritten t.raw t.reason t.left ∧
        ∀ t', (own ((rehearsal .rr).task leaving) turns)[k + 1]? = some t' → t'.entered = t.left) ∧
    ∀ calls v, Solo leaver (.load ((rehearsal .rr).firstFrame leaving) ()) calls v →
      Finishes leaver v → calls = ownCalls ((rehearsal .rr).task leaving) turns := by
  have plays : (((rehearsal .rr).play interleaved).map fun ran =>
      (ran.1.map (·.task), (ran.2.loop.tasks ((rehearsal .rr).task leaving)).state)) =
        some ([(rehearsal .rr).task leaving, (rehearsal .rr).task another, (rehearsal .rr).task leaving], .done) := by
    decide +kernel
  obtain ⟨⟨passes, h⟩, played, facts⟩ := Option.map_eq_some_iff.mp plays
  obtain ⟨s, started, driven⟩ := Batch.play_drives played
  obtain ⟨p₁, m₁, _, step₁, event₁, driven₁, rfl⟩ := Batch.drive_step driven
  obtain ⟨p₂, m₂, _, step₂, event₂, driven₂, rfl⟩ := Batch.drive_step driven₁
  obtain ⟨p₃, m₃, _, step₃, event₃, driven₃, rfl⟩ := Batch.drive_step driven₂
  obtain ⟨rfl, rfl⟩ := Batch.drive_nil driven₃
  simp only [List.map_cons, List.map_nil, Prod.mk.injEq, List.cons.injEq, and_true] at facts
  obtain ⟨⟨task₁, task₂, task₃⟩, done⟩ := facts
  have coherent := Batch.start_coherent started
  have coherent₁ := Batch.step_coherent coherent step₁
  have coherent₂ := Batch.step_coherent coherent₁ step₂
  -- The frames in the table: the second task leaves that of the first alone.
  have apart : (rehearsal .rr).task leaving ≠ (rehearsal .rr).task another := by decide
  obtain ⟨_, ran, -, made, -⟩ := Batch.start_spec (Batch.start_bounded started)
  obtain rfl := Except.ok.inj (started.symm.trans ran)
  obtain ⟨-, stored, others₁⟩ := (Batch.step_view coherent step₁).frames
  obtain ⟨-, -, others₂⟩ := (Batch.step_view coherent₁ step₂).frames
  rw [task₁] at stored others₁
  rw [task₂] at others₂
  have frame₁ : (s.tasks p₁.task).frame = (rehearsal .rr).firstFrame leaving := by rw [task₁, made]; rfl
  have frame₂ : (m₁.loop.tasks p₂.task).frame = (rehearsal .rr).firstFrame another := by
    rw [task₂, (others₁ _ apart.symm).1, made]
    rfl
  have frame₃ : (m₂.loop.tasks p₃.task).frame = (mailed leaving TIMER_INTERRUPT .timer 10000).frame := by
    rw [task₃, (others₂ _ apart).1, stored, event₁]
  have turn₁ := leaver_turns coherent step₁ frame₁ (.timer (.single (asking_first leaving)))
    (by rw [task₁, event₁]; exact asking_handled leaving (classify_timer rfl) 10000)
  have turn₂ := leaver_turns coherent₁ step₂ frame₂ (asking_exits another (.single (asking_first another)))
    (by rw [task₂, event₂]; exact asking_handled another (asking_classified another) 15000)
  have exits : Trapped leaver (.load (mailed leaving TIMER_INTERRUPT .timer 10000).frame ()) (asking leaving)
      ((asking leaving).save 0 8 0) := by
    rw [asking_again]
    exact asking_exits leaving .refl
  have turn₃ := leaver_turns coherent₂ step₃ frame₃ exits
    (by rw [task₃, event₃]; exact asking_handled leaving (asking_classified leaving) 20000)
  have executes : (rehearsal .rr).Executes (fun _ => leaver) (fun _ => ()) _ ⟨h, fun _ => ()⟩ :=
    ⟨s, started, .cons turn₁ (.cons turn₂ (.single turn₃))⟩
  obtain ⟨handed, -, alone⟩ := Batch.interleaving_invisible (rehearsal .rr) executes leaving
  refine ⟨_, _, executes, ?_, handed, fun calls v ran finishes => ((alone done).2 calls v ran finishes).1⟩
  simp [Turn.task, Turn.reason, task₁, task₂, task₃, event₁, event₂, event₃, mailed]

end Neonos.Scheduler
