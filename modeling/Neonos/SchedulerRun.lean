import Neonos.SharedMemory

/-! The scheduler lessons from end to end. `run` works off a list of batches;
each begins at the clock and the mailbox that the one before has left. -/
namespace Neonos.UserScheduler
open Rv64.Reg Rv64User ByteMemory Scheduler Runs

variable {p : Placement} {b c : Batch} {h : Head} {call : BatchCall}

/-! ### A batch inside `run` -/

variable {machine : Machine Memory} {raises : Machine Memory → User Memory → User Memory → TrapFrame → Prop}
  {rest : List BatchCall} {status : Status Shared}

/-- `run` gets where its batch gets. -/
theorem batch_inside (inevitable : Inevitably (b.SharedGoes machine raises) goal status)
    (after : ∀ status, goal status → Inevitably (Stage.Goes machine raises) aim (.batch b rest status)) :
    Inevitably (Stage.Goes machine raises) aim (.batch b rest status) := by
  induction inevitable with
  | now here => exact after _ here
  | later going _ ih =>
    refine .later (.inside going) fun stage step => ?_
    cases step with
    | inside step => exact ih _ step
    | refuses | panics | starts | completes => cases going

/-- A batch that MLFQ runs with a task that yields often. -/
def Accounted (call : BatchCall) : Prop := call.policy = .mlfq ∧ ∃ spec ∈ call.specs, spec.mode = 2

instance (call : BatchCall) : Decidable (Accounted call) := inferInstanceAs (Decidable (_ ∧ _))

theorem report_escaped {l : Loop} (failed : b.report l = .error .escaped) : Accounted ⟨b.policy, b.specs⟩ := by
  obtain ⟨j, wrong⟩ := Batch.report_error failed
  obtain ⟨mode, mlfq⟩ := Batch.reportTask_escaped wrong
  exact ⟨of_decide_eq_true mlfq, _, List.get_mem b.specs j, mode⟩

/-- The batches that the user program is made for, with fewer turns than the
counters of the report can count. -/
def Hosted (call : BatchCall) : Prop :=
  call.specs ≠ [] ∧ call.specs.length ≤ N ∧ (∀ spec ∈ call.specs, Runnable spec) ∧ work call.specs < 2 ^ 31

instance (call : BatchCall) : Decidable (Hosted call) := inferInstanceAs (Decidable (_ ∧ _ ∧ _ ∧ _))

theorem Hosts.next (hosts : Hosts p b) (follows : b.Follows h call c) (hosted : Hosted call) : Hosts p c where
  linked := follows.image ▸ hosts.linked
  runnable := follows.specs ▸ hosted.2.2.1
  room := follows.room

/-- The next batch can begin at once. -/
theorem follows_exists (b : Batch) {h : Head} (hosted : Hosted call) (room : h.clock ≤ usizeMax - 20 * T) :
    ∃ c, b.Follows h call c :=
  ⟨⟨b.profile, call.policy, call.specs, hosted.1, hosted.2.1, b.image, b.sstatus, h.loop.exchange, h.clock⟩,
    rfl, rfl, rfl, rfl, rfl, Nat.le_refl _, room⟩

/-- A batch in `run` comes to its report. It stops `run` when MLFQ has not
demoted a task that yields; otherwise the next batch still has time to begin. -/
theorem Hosts.reports (hosts : Hosts p b) (few : work b.specs < 2 ^ 31) (elsewhere : Machine Memory) (memory : Memory)
    (escapes : Accounted ⟨b.policy, b.specs⟩ → aim (.refused .escaped))
    (after : ∀ s lines, b.report s.head.loop = .ok lines → s.head.clock ≤ usizeMax - 20 * T →
      Inevitably (Stage.Goes (p.machine elsewhere) GettingOn) aim (.batch b rest (.stopped s))) :
    ∃ first, b.start = .ok first ∧ Inevitably (Stage.Goes (p.machine elsewhere) GettingOn) aim
      (.batch b rest (.going ⟨⟨first, b.base⟩, memory⟩)) := by
  obtain ⟨first, started, ends⟩ := hosts.ends elsewhere memory
  refine ⟨first, started, batch_inside ends fun status stopped => ?_⟩
  obtain ⟨ended, room⟩ := stopped
  cases status with
  | going => exact ended.elim
  | panicked cause => exact absurd ended.late (Nat.not_le.mpr few)
  | stopped s =>
    have served : SharedServed p elsewhere b memory s := ended
    cases reported : b.report s.head.loop with
    | ok lines => exact after s lines reported (room s rfl)
    | error cause =>
      cases served.report cause reported
      refine .later (.refuses reported) fun stage step => ?_
      cases step with
      | inside step => cases step
      | refuses failed =>
        cases reported.symm.trans failed
        exact .now (escapes (report_escaped reported))
      | panics passed | starts passed | completes passed => cases reported.symm.trans passed

/-- Batch after batch, by induction on those that are left. -/
theorem stages_end (elsewhere : Machine Memory) (hosted : ∀ call ∈ rest, Hosted call) (hosts : Hosts p b)
    (few : work b.specs < 2 ^ 31) (memory : Memory) :
    ∃ first, b.start = .ok first ∧ Inevitably (Stage.Goes (p.machine elsewhere) GettingOn)
      (fun stage => stage = .complete ∨
        (∃ call ∈ ⟨b.policy, b.specs⟩ :: rest, Accounted call) ∧ stage = .refused .escaped)
      (.batch b rest (.going ⟨⟨first, b.base⟩, memory⟩)) := by
  induction rest generalizing b memory with
  | nil =>
    refine hosts.reports few elsewhere memory (fun accounted => .inr ⟨⟨_, List.mem_cons_self, accounted⟩, rfl⟩) ?_
    intro s lines reported _
    refine .later (.completes reported) fun stage step => ?_
    cases step with
    | inside step => cases step
    | refuses failed => cases reported.symm.trans failed
    | completes => exact .now (.inl rfl)
  | cons call rest ih =>
    obtain ⟨next, others⟩ := List.forall_mem_cons.mp hosted
    refine hosts.reports few elsewhere memory (fun accounted => .inr ⟨⟨_, List.mem_cons_self, accounted⟩, rfl⟩) ?_
    intro s lines reported room
    obtain ⟨c, follows⟩ := follows_exists b next room
    obtain ⟨_, begins, -⟩ := ih others (hosts.next follows next) (follows.specs ▸ next.2.2.2) memory
    refine .later (.starts reported follows begins memory) fun stage step => ?_
    cases step with
    | inside step => cases step
    | refuses failed => cases reported.symm.trans failed
    | panics _ follows panics =>
      obtain ⟨_, begins, -⟩ := ih others (hosts.next follows next) (follows.specs ▸ next.2.2.2) memory
      cases panics.symm.trans begins
    | starts _ follows begins' memory =>
      obtain ⟨_, begins, goes⟩ := ih others (hosts.next follows next) (follows.specs ▸ next.2.2.2) memory
      cases begins.symm.trans begins'
      refine goes.mono fun stage reached => reached.imp_right fun refused => ⟨?_, refused.2⟩
      obtain ⟨⟨other, member, accounted⟩, -⟩ := refused
      rw [follows.policy, follows.specs] at member
      exact ⟨other, List.mem_cons_of_mem _ member, accounted⟩

/-! ### The whole of `run` -/

/-- `scheduler::run` of lessons 12, 14 and 15 comes to `stage-complete` if only
every timer interrupt lets its task get on: each batch begins where the one
before has left clock and mailbox, ends, and passes its report. Only lesson 15
can stop before, and only because MLFQ has not demoted its yielding task. -/
theorem run_completes (checkpoint : Checkpoint) (other : checkpoint ≠ .lesson13Timer)
    (opens : batches checkpoint = ⟨b.policy, b.specs⟩ :: rest) (linked : p.Linked b.image)
    (room : b.base ≤ usizeMax - 20 * T) (elsewhere : Machine Memory) (memory : Memory) :
    ∃ first, b.start = .ok first ∧ Inevitably (Stage.Goes (p.machine elsewhere) GettingOn)
      (fun stage => stage = .complete ∨ checkpoint = .lesson15Mlfq ∧ stage = .refused .escaped)
      (.batch b rest (.going ⟨⟨first, b.base⟩, memory⟩)) := by
  have hosted : ∀ call ∈ batches checkpoint, Hosted call := by
    cases checkpoint with
    | lesson13Timer => exact absurd rfl other
    | lesson12Yield | lesson14Preemption | lesson15Mlfq => decide
  have accounted : (∃ call ∈ batches checkpoint, Accounted call) → checkpoint = .lesson15Mlfq := by
    cases checkpoint with
    | lesson12Yield | lesson13Timer | lesson14Preemption | lesson15Mlfq => decide
  rw [opens] at hosted accounted
  obtain ⟨head, others⟩ := List.forall_mem_cons.mp hosted
  obtain ⟨first, started, goes⟩ := stages_end elsewhere others ⟨linked, head.2.2.1, room⟩ head.2.2.2 memory
  exact ⟨first, started, goes.mono fun stage reached => reached.imp_right fun refused =>
    ⟨accounted refused.1, refused.2⟩⟩

/-- The first batch of lesson 12. -/
def alternating : Batch where
  profile := .dev
  policy := .yield
  specs := [Spec.new 0 3, Spec.new 0 3]
  nonempty := by simp
  fits := by decide
  image := hosted.image
  sstatus := 0
  mailbox := ⟨0, ZERO_FRAME, .syscall, 0⟩
  base := 0

theorem run_completes_lesson12 : ∃ first, alternating.start = .ok first ∧
    Inevitably (Stage.Goes (uncompressed.machine fun _ => .trap 1) GettingOn) (· = .complete)
      (.batch alternating [⟨.yield, [Spec.new 2 3]⟩, ⟨.yield, [Spec.new 2 500, Spec.new 2 500]⟩,
        ⟨.yield, [faulting, Spec.new 2 3]⟩] (.going ⟨⟨first, 0⟩, fun _ => 0⟩)) := by
  have opens : batches .lesson12Yield = ⟨alternating.policy, alternating.specs⟩ :: [⟨.yield, [Spec.new 2 3]⟩,
      ⟨.yield, [Spec.new 2 500, Spec.new 2 500]⟩, ⟨.yield, [faulting, Spec.new 2 3]⟩] := rfl
  obtain ⟨first, started, goes⟩ := run_completes .lesson12Yield (by decide) opens hosted_hosts.linked
    (show 0 ≤ usizeMax - 20 * T from Nat.zero_le _) (fun _ => .trap 1) fun _ => 0
  exact ⟨first, started, goes.mono fun stage reached => reached.resolve_right fun refused => by cases refused.1⟩

end Neonos.UserScheduler
