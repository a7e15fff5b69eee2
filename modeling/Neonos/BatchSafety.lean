import Neonos.Model.BatchRun
import Neonos.ReportCounters
import Neonos.UserExits

/-! A batch that runs the user program gets to no panic but that of a counter of
the report: neither the management code before and after `run_task` nor the trap
handler meets anything it does not expect, in whatever order the tasks take
their turns and wherever the timer interrupts them. -/
namespace Neonos.UserScheduler
open Rv64.Reg Rv64User ByteMemory Scheduler Runs

/-! ### Where the program can trap -/

variable {p : Placement} {elsewhere : Machine Memory} {image : Image}

/-- A task of the program before any of its instructions: it is where the kernel
looks for its code, touches no memory but its own word, and traps as the kernel
expects. -/
structure Behaves (p : Placement) (elsewhere : Machine Memory) (fault : Bool) (v : User Memory) : Prop where
  inside : ∃ k i, listing.code[k]? = some i ∧ i.OwnWord = true ∧ v.pc = p.addr k
  exits : p.machine elsewhere v = .trap 8 → v.reply = none → Syscall.dispatch (v.x a7) (v.x a0) = .exit 0
  faults : p.machine elsewhere v = .trap 2 → fault = true

/-- The code has no other exceptions than environment calls and illegal instructions. -/
theorem traps_known {k : Nat} (here : listing.code[k]? = some i) (pc : v.pc = p.addr k)
    (trap : p.machine elsewhere v = .trap cause) : cause = 8 ∧ i = .ecall ∨ cause = 2 := by
  have fetched := fetch_at p here
  unfold Placement.machine at trap
  rw [pc, fetched] at trap
  split at trap
  · rename_i none_
    cases none_
  · rename_i call
    exact .inl ⟨(Outcome.trap.inj trap).symm, congrArg Prod.fst (Option.some.inj call)⟩
  · exact .inr (Outcome.trap.inj trap).symm
  · cases trap

/-- A task of the program proper, wherever its own run has got to. -/
theorem behaves_sound (ascii : u.x s0 ≤ 0x7f) (positive : 1 ≤ n) (fits : n < 2 ^ 32) (modes : m ≤ 3)
    (entry : u.pc = p.at_ .sched_entry) (limit : u.x s1 = BitVec.ofNat 64 n) (kind : u.x s4 = BitVec.ofNat 64 m)
    (solo : Solo (p.machine elsewhere) u calls v) : Behaves p elsewhere false v := by
  have short : listing.place .sched_timer_wait < listing.code.length := by decide
  have well (finishes : Finishes (p.machine elsewhere) v) :=
    finishes_well p elsewhere ascii positive fits modes entry limit kind solo finishes
  obtain ⟨whole, -, -, -, follows⟩ := runs_on p elsewhere (supervisor_kept ascii) positive fits modes entry limit kind
  obtain ⟨pcs, run⟩ := solo_run solo
  obtain ⟨-, -, -, -, ⟨k, early, pc⟩, -⟩ := follows pcs v run
  obtain ⟨i, here⟩ : ∃ i, listing.code[k]? = some i := ⟨_, List.getElem?_eq_getElem (early.trans short)⟩
  refine ⟨⟨k, _, here, own_word early here, pc⟩, fun trap silent => (well (.inl ⟨trap, silent⟩)).2, fun trap => ?_⟩
  have call := (well (.inr trap)).1
  rw [trap] at call
  exact absurd (Outcome.trap.inj call) (by decide)

theorem machine_fault (p : Placement) (elsewhere : Machine Memory) (pc : v.pc = p.at_ .sched_fault) :
    p.machine elsewhere v = .trap 2 := by
  have here : listing.code[listing.place .sched_fault]? = some .illegal := rfl
  have fetched := fetch_at p here
  unfold Placement.machine
  rw [pc, Placement.at_, fetched]

/-- A task that starts at the illegal instruction stays there. -/
theorem solo_fault (pc : u.pc = p.at_ .sched_fault) (solo : Solo (p.machine elsewhere) u calls v) : v = u := by
  obtain ⟨events, run, -⟩ := solo
  cases events with
  | nil => exact run.of_nil.symm
  | cons e events =>
    obtain ⟨w, first, -⟩ := run.uncons
    exact absurd first (finishes_stuck (.inr (machine_fault p elsewhere pc)) e w)

theorem behaves_fault (pc : u.pc = p.at_ .sched_fault) (solo : Solo (p.machine elsewhere) u calls v) :
    Behaves p elsewhere true v := by
  rw [solo_fault pc solo]
  refine ⟨⟨listing.place .sched_fault, .illegal, rfl, rfl, pc⟩, fun trap => ?_, fun _ => rfl⟩
  rw [machine_fault p elsewhere pc] at trap
  exact absurd (Outcome.trap.inj trap) (by decide)

/-! ### The handler takes it -/

theorem ran_of_trapped {machine : Machine Memory} (trapped : Trapped machine u v raw) : Computes machine u v := by
  cases trapped with
  | exception ran | timer ran => exact ran

theorem Placement.Linked.mono (linked : p.Linked image) {j k : Nat} (before : j ≤ k) (inside : k ≤ listing.code.length) :
    p.addr j ≤ p.addr k := by
  induction before with
  | refl => exact BitVec.le_refl _
  | step _ ih =>
    exact BitVec.le_trans (ih (Nat.le_of_succ_le inside)) (BitVec.le_of_lt (linked.ascending _ inside))

/-- The address of an instruction passes the check on `sepc`, and so does the one behind it. -/
theorem Placement.Linked.inside (linked : p.Linked image) {k : Nat} (inside : k < listing.code.length) :
    image.schedCodeStart ≤ p.addr k ∧ p.addr k < image.schedCodeEnd := by
  rw [linked.start, linked.stop]
  refine ⟨linked.mono (Nat.zero_le k) inside.le, ?_⟩
  have next := linked.ascending k inside
  have rest := linked.mono (Nat.succ_le_of_lt inside) (Nat.le_refl _)
  rw [BitVec.lt_def] at next ⊢
  rw [BitVec.le_def] at rest
  exact Nat.lt_of_lt_of_le next rest

theorem Placement.Linked.nextPc (linked : p.Linked image) {k : Nat} (here : listing.code[k]? = some .ecall) :
    nextPc (p.addr k) = .ok (p.addr k + 4) := by
  have inside : k < listing.code.length := (List.getElem?_eq_some_iff.mp here).1
  have ascends := linked.ascending k inside
  rw [p.ecall k here] at ascends
  have room : (p.addr k).toNat + 4 ≤ usizeMax := by
    unfold usizeMax
    bv_omega
  exact if_pos room

/-- What the handler reports of a task that behaves. -/
structure Reported (fault : Bool) (time : Nat) (event : Exchange) : Prop where
  stamp : event.time = time
  exits : ∀ code, event.reason = .exit code → code = 0
  faults : ∀ cause, event.reason = .fault cause → cause = 2 ∧ fault = true

theorem classify_fault {raw : TrapFrame} (illegal : raw.scause = 2) : classify raw = .ok (raw, .fault 2) := by
  have top : ¬ (2 : Word) >>> 63 ≠ 0 := by decide
  have other : (2 : Word) ≠ 8 := by decide
  unfold classify
  rw [illegal, if_neg top, if_neg other, if_pos rfl]
  rfl

/-- A call is classified as soon as the address behind it exists. -/
theorem classify_call {raw : TrapFrame} (ecall : raw.scause = 8) (next : nextPc raw.sepc = .ok sepc) :
    (∃ frame reason, classify raw = .ok (frame, reason) ∧ (reason = .yield ∨ reason = .syscall)) ∨
      ∃ code, raw.x 17 ≠ 3 ∧ Syscall.dispatch (raw.x 17) (raw.x 10) = .exit code ∧
        classify raw = .ok (raw, .exit code.toNat) := by
  have top : ¬ (8 : Word) >>> 63 ≠ 0 := by decide
  unfold classify
  rw [ecall, if_neg top, if_pos rfl, next]
  by_cases number : raw.x 17 = 3
  · rw [if_pos number]
    exact .inl ⟨_, _, rfl, .inl rfl⟩
  · rw [if_neg number]
    cases called : Syscall.dispatch (raw.x 17) (raw.x 10) with
    | ret value => exact .inl ⟨_, _, rfl, .inr rfl⟩
    | exit code => exact .inr ⟨code, number, rfl, rfl⟩

/-- A trap of a task that behaves passes every check of `handle`. -/
theorem Behaves.handled (linked : p.Linked image) {v : User Memory} (behaves : Behaves p elsewhere fault v)
    (raised : FromUser (p.machine elsewhere) u v raw) (time : Nat) (address : Word) :
    ∃ event, handle image time address address raw = .ok event ∧ Reported fault time event := by
  obtain ⟨⟨k, i, here, -, pc⟩, exits, faults⟩ := behaves
  have inside : k < listing.code.length := (List.getElem?_eq_some_iff.mp here).1
  obtain ⟨trapped, mode⟩ := raised
  have sepc : raw.sepc = p.addr k := by
    cases trapped <;> exact pc
  have checked (frame : TrapFrame) (reason : Reason) (classified : classify raw = .ok (frame, reason))
      (exit : ∀ code, reason = .exit code → code = 0)
      (fault_ : ∀ cause, reason = .fault cause → cause = 2 ∧ fault = true) :
      ∃ event, handle image time address address raw = .ok event ∧ Reported fault time event := by
    exact ⟨_, handle_classified classified mode (sepc ▸ linked.inside inside) time address, rfl, exit, fault_⟩
  cases trapped with
  | timer ran => exact checked _ _ (classify_timer rfl) (by simp) (by simp)
  | @exception cause sstatus stval ran trap =>
    rcases traps_known here pc trap with ⟨rfl, rfl⟩ | rfl
    · have next : nextPc (v.save sstatus (exceptionCause 8) stval).sepc = .ok (p.addr k + 4) := by
        rw [sepc]
        exact linked.nextPc here
      rcases classify_call rfl next with ⟨frame, reason, classified, how⟩ | ⟨code, number, called, classified⟩
      · rcases how with rfl | rfl
        · exact checked _ _ classified (by simp) (by simp)
        · exact checked _ _ classified (by simp) (by simp)
      · have good := exits trap (User.reply_exit number called)
        obtain rfl := Syscall.SyscallOutcome.exit.inj (called.symm.trans good)
        exact checked _ _ classified (by simp) (by simp)
    · exact checked _ _ (classify_fault rfl) (by simp) (by simp [faults trap])

/-! ### The loop takes what the handler reports -/

end Neonos.UserScheduler

namespace Neonos.Scheduler.Batch
open Runs

variable {b : Batch} {r : Readings} {s e : Loop} {i : TaskId}

theorem executes_reaches {m : System μ} (run : b.Executes machines memories turns m) :
    b.Reaches (turns.map Turn.pass) m.head := by
  obtain ⟨first, started, run⟩ := run
  refine ⟨first, started, run.records (fun turns m => Run b.Step ⟨first, b.base⟩ (turns.map Turn.pass) m.head)
    .nil ?_⟩
  intro turns m t m' earlier turn
  rw [List.map_append, List.map_singleton]
  exact .snoc earlier turn.1

theorem answer_ends {t : Task} (how : b.Ends i s.exchange.reason) :
    b.answer r i s t =
      .ok ({ s with current := none }, { t with state := .done, completion := s.exchange.time }, false) := by
  unfold answer
  rcases how with exit | ⟨fault, spec, known, announced⟩
  · rw [exit]
    rfl
  · rw [fault]
    dsimp only
    rw [known]
    exact if_pos ⟨announced, rfl⟩

theorem account_done {t : Task} (stopped : t.state = .done) (requeue : Bool) :
    b.account s t requeue = .ok (t, requeue) := by
  unfold account
  rw [if_neg fun live => live.1 stopped, if_neg fun live => live.1 stopped]

/-- A task that ends as it should is settled, up to the event record. -/
theorem settle_ends (forward : r.entered ≤ s.exchange.time) (how : b.Ends i s.exchange.reason)
    (failed : b.settle r i s = .error cause) : cause = .counterOverflow ∧ ¬ b.profile.Fits s.dropped := by
  unfold settle at failed
  rcases bind_error.mp failed with unpaid | ⟨t₀, -, failed⟩
  · cases (charge_runs forward _).symm.trans unpaid
  rcases bind_error.mp failed with unanswered | ⟨⟨s₁, t₁, flag⟩, answered, failed⟩
  · cases (answer_ends how).symm.trans unanswered
  cases (answer_ends how).symm.trans answered
  rcases bind_error.mp failed with unaccounted | ⟨⟨t₂, requeue⟩, accounted, failed⟩
  · cases (account_done rfl false).symm.trans unaccounted
  cases (account_done rfl false).symm.trans accounted
  obtain ⟨rfl, -, full⟩ := Loop.record_error failed
  exact ⟨rfl, full⟩

/-- Where the task does not fail, only the counter of the dropped events can. -/
theorem settle_counts (coherent : Coherent b e) (held : e.current = some i)
    (low : b.mlfq = true → (e.tasks i).level ≤ 2) (forward : r.entered ≤ e.exchange.time)
    (room : r.limit + T ≤ usizeMax) (sound : ¬ Failing e.exchange.reason ∨ b.Ends i e.exchange.reason)
    (failed : b.settle r i e = .error cause) : cause = .counterOverflow ∧ ¬ b.profile.Fits e.dropped := by
  rcases sound with sound | how
  · rcases settle_fails coherent held low forward room failed with ⟨-, failing⟩ | full
    · exact absurd failing sound
    · exact full
  · exact settle_ends forward how failed

/-- A report fails at one of its tasks. -/
theorem report_error {l : Loop} (failed : b.report l = .error cause) : ∃ j, b.reportTask l j = .error cause := by
  unfold report at failed
  generalize List.finRange b.specs.length = todo at failed
  induction todo with
  | nil => cases failed
  | cons j todo ih =>
    rw [List.mapM_cons] at failed
    rcases bind_error.mp failed with now | ⟨_, -, failed⟩
    · exact ⟨j, now⟩
    · rcases bind_error.mp failed with later | ⟨_, -, failed⟩
      · exact ih later
      · cases failed

theorem sub_underflow {profile : Profile} (wrong : profile.sub a c panicked = .error cause) : cause = panicked := by
  unfold Profile.sub at wrong
  split at wrong
  · cases wrong
  · split at wrong <;> cases wrong
    rfl

/-- The times of a line are all that can still be wrong behind the checks. -/
theorem reportTask_underflow {first completion : Nat} {line : Nat → Nat → Line}
    (wrong : (do
      let response ← b.profile.sub first b.base ReportPanic.underflow
      let turnaround ← b.profile.sub completion b.base ReportPanic.underflow
      .ok (line response turnaround)) = .error cause) : cause = .underflow := by
  rcases bind_error.mp wrong with early | ⟨_, -, wrong⟩
  · exact sub_underflow early
  · rcases bind_error.mp wrong with early | ⟨_, -, wrong⟩
    · exact sub_underflow early
    · cases wrong

/-- Only tasks that wait for the timer flag have their interrupts counted. -/
theorem reportTask_timerCount {l : Loop} {j : Fin b.specs.length} (wrong : b.reportTask l j = .error .timerCount) :
    (b.specs.get j).mode = 4 := by
  unfold reportTask at wrong
  dsimp only at wrong
  split at wrong
  · cases wrong
  split at wrong
  · rename_i counted
    exact counted.1
  split at wrong
  · cases wrong
  split at wrong
  · cases wrong
  · cases reportTask_underflow wrong

theorem reportTask_escaped {l : Loop} {j : Fin b.specs.length} (wrong : b.reportTask l j = .error .escaped) :
    (b.specs.get j).mode = 2 ∧ b.mlfq := by
  unfold reportTask at wrong
  dsimp only at wrong
  split at wrong
  · cases wrong
  split at wrong
  · cases wrong
  split at wrong
  · rename_i escaped
    exact ⟨escaped.1, escaped.2.1⟩
  · split at wrong
    · cases wrong
    · cases reportTask_underflow wrong

end Neonos.Scheduler.Batch

namespace Neonos.UserScheduler
open Rv64.Reg Rv64User ByteMemory Scheduler Runs

/-! ### A pass of a batch that hosts the program -/

/-- The program is where the batch looks for it, its specs are those of the
program, and the clock starts 20 quanta below the end of a `usize`. -/
structure Hosts (p : Placement) (b : Batch) : Prop where
  linked : p.Linked b.image
  runnable : ∀ spec ∈ b.specs, Runnable spec
  room : b.base ≤ usizeMax - 20 * T

variable {p : Placement} {elsewhere : Machine Memory} {b : Batch} {memories : TaskId → Memory} {turns : List Turn}
  {s : System Memory} {r : Readings} {i : TaskId} {e : Loop}

theorem entered_slot (entered : b.Entered r l i e) : e.slots i = (l.tasks i).frame := by
  rw [entered.slot, Function.update_self, ← b.risen_frame r l i]
  rcases entered.choice with ⟨-, tasks, -⟩ | ⟨-, -, tasks, -⟩
  · rw [tasks]
  · rw [tasks, Function.update_self]
    rfl

/-- A task of the batch begins at one of the two entries, with its own letter and mode. -/
structure Begins (p : Placement) (spec : Spec) (u : User Memory) : Prop where
  ascii : u.x s0 ≤ 0x7f
  limit : u.x s1 = BitVec.ofNat 64 spec.iterations
  kind : u.x s4 = BitVec.ofNat 64 spec.mode
  pc : u.pc = if spec.fault then p.at_ .sched_fault else p.at_ .sched_entry

theorem Hosts.begins (hosts : Hosts p b) (j : Fin b.specs.length) (stack : Memory) :
    Begins p (b.specs.get j) (.load (b.firstFrame j) stack) := by
  obtain ⟨letter, limit, kind⟩ := starts_with b j stack
  refine ⟨?_, limit, kind, ?_⟩
  · have few : b.specs.length ≤ 4 := b.fits
    have small := j.isLt
    rw [letter, BitVec.le_def, BitVec.toNat_ofNat]
    show _ ≤ 127
    omega
  · rw [← hosts.linked.fault, ← hosts.linked.entry]
    rfl

theorem Begins.behaves {spec : Spec} (begins : Begins p spec u) (runnable : Runnable spec)
    (solo : Solo (p.machine elsewhere) u calls v) : Behaves p elsewhere spec.fault v := by
  obtain ⟨ascii, limit, kind, pc⟩ := begins
  obtain ⟨modes, iterations⟩ := runnable
  cases fault : spec.fault with
  | false =>
    obtain ⟨positive, fits⟩ := iterations fault
    rw [fault, if_neg Bool.false_ne_true] at pc
    exact behaves_sound ascii positive fits modes pc limit kind solo
  | true =>
    rw [fault, if_pos rfl] at pc
    exact behaves_fault pc solo

/-- Wherever a task of the batch gets before its next trap, it behaves. -/
theorem task_behaves (hosts : Hosts p b) (run : b.Executes (fun _ => p.machine elsewhere) memories turns s)
    (j : Fin b.specs.length)
    (ran : Computes (p.machine elsewhere) (.load (s.head.loop.tasks (b.task j)).frame (s.memories (b.task j))) v) :
    Behaves p elsewhere (b.specs.get j).fault v :=
  (hosts.begins j (memories (b.task j))).behaves (hosts.runnable _ (List.get_mem b.specs j))
    ((Batch.executes_isolated run j).2.solo.computes ran)

/-- The environment of a pass: a batch that hosts the program, somewhere in a
run of it, and the clock. -/
structure Underway (p : Placement) (elsewhere : Machine Memory) (b : Batch) (memories : TaskId → Memory)
    (turns : List Turn) (s : System Memory) : Prop where
  hosts : Hosts p b
  run : b.Executes (fun _ => p.machine elsewhere) memories turns s
  clock : s.head.clock ≤ usizeMax - 20 * T

/-- The panic of a counter of the report: in a build that checks, and not
before this many passes. -/
structure Overflow (b : Batch) (passes : Nat) (cause : Panic) : Prop where
  counter : cause = .counterOverflow
  checks : b.profile = .dev
  late : 2 ^ 31 ≤ passes

theorem Overflow.mono (overflow : Overflow b n cause) (more : n ≤ m) : Overflow b m cause :=
  ⟨overflow.counter, overflow.checks, overflow.late.trans more⟩

theorem Underway.enters (underway : Underway p elsewhere b memories turns s) (ticks : r.Ticks s.head.clock time)
    (failed : b.enter r s.head.loop = .error cause) : Overflow b (turns.length + 1) cause := by
  have reached := Batch.executes_reaches underway.run
  have start := (Batch.reaches_timed reached).base
  obtain ⟨forward, room⟩ := ticks
  unfold Readings.Nondecreasing at forward
  have small : 20 * T ≤ usizeMax := by decide
  obtain ⟨rfl, full⟩ := Batch.enter_counts (Batch.reaches_coherent reached)
    (fun on => Batch.reaches_sliced on reached) (by omega) (by omega) (by omega) (by omega) failed
  obtain ⟨checks, late⟩ := (Batch.reaches_tallied reached).overflows full
  rw [List.length_map] at late
  exact ⟨rfl, checks, late⟩

/-- The task that a pass enters. -/
theorem Underway.enters_task (underway : Underway p elsewhere b memories turns s)
    (entered : b.enter r s.head.loop = .ok (some (i, e))) :
    ∃ j, i = b.task j ∧ e.slots i = (s.head.loop.tasks (b.task j)).frame ∧ e.exchange.expected = b.image.framePtr i := by
  have coherent := Batch.reaches_coherent (Batch.executes_reaches underway.run)
  have view := Batch.enter_view entered
  have entry := Batch.entered_coherent coherent view
  rcases b.task_or_spare i with ⟨j, rfl⟩ | spare
  · exact ⟨j, rfl, entered_slot view, view.expected⟩
  · have running := (entry.running i).mp view.current
    rw [entry.spare i spare] at running
    cases running

theorem Reported.settles (reported : Reported (b.specs.get j).fault time event) :
    ¬ Batch.Failing event.reason ∨ b.Ends (b.task j) event.reason := by
  cases reason : event.reason with
  | syscall | yield | timer => exact .inl (by simp [Batch.Failing])
  | exit code =>
    obtain rfl := reported.exits code reason
    exact .inr (.inl rfl)
  | fault cause =>
    obtain ⟨rfl, announced⟩ := reported.faults cause reason
    exact .inr (.inr ⟨rfl, _, List.getElem?_eq_getElem j.isLt, announced⟩)

/-- Whatever a task traps with, the handler takes it, and the loop up to a counter. -/
theorem Underway.goes (underway : Underway p elsewhere b memories turns s) (ticks : r.Ticks s.head.clock time)
    (entered : b.enter r s.head.loop = .ok (some (i, e)))
    (raised : FromUser (p.machine elsewhere) (.load (e.slots i) (s.memories i)) v raw) :
    ∃ event, handle b.image time e.exchange.expected (b.image.framePtr i) raw = .ok event ∧ event.time = time ∧
      ∀ cause, b.settle r i (e.trapped i event) = .error cause → Overflow b (turns.length + 1) cause := by
  have reached := Batch.executes_reaches underway.run
  have coherent := Batch.reaches_coherent reached
  have view := Batch.enter_view entered
  obtain ⟨j, rfl, slot, expected⟩ := underway.enters_task entered
  rw [slot] at raised
  have behaves := task_behaves underway.hosts underway.run j (ran_of_trapped raised.trapped)
  obtain ⟨event, handled, reported⟩ := behaves.handled underway.hosts.linked raised time (b.image.framePtr (b.task j))
  rw [← expected] at handled
  refine ⟨event, expected ▸ handled, reported.stamp, fun cause failed => ?_⟩
  obtain ⟨forward, room⟩ := ticks
  unfold Readings.Nondecreasing at forward
  have quantum : T ≤ 20 * T := by decide
  have small : 20 * T ≤ usizeMax := by decide
  have low (on : b.mlfq = true) : (e.tasks (b.task j)).level ≤ 2 :=
    Batch.entered_low coherent view (Batch.reaches_sliced on reached)
  have charged : r.entered ≤ event.time := by
    rw [reported.stamp]
    omega
  obtain ⟨rfl, full⟩ := Batch.settle_counts (Batch.trapped_coherent (Batch.entered_coherent coherent view) event)
    view.current low charged (by omega) reported.settles failed
  rw [show (e.trapped (b.task j) event).dropped = s.head.loop.dropped from view.dropped] at full
  obtain ⟨checks, late⟩ := (Batch.reaches_tallied reached).drops full
  rw [List.length_map] at late
  exact ⟨rfl, checks, late⟩

section turn
variable (underway : Underway p elsewhere b memories turns s) (ticks : r.Ticks s.head.clock time)
  (entered : b.enter r s.head.loop = .ok (some (i, e)))
  (raised : FromUser (p.machine elsewhere) (.load (e.slots i) (s.memories i)) v raw)
  (handled : handle b.image time e.exchange.expected (b.image.framePtr i) raw = .ok event)
  (settled : b.settle r i (e.trapped i event) = .ok next)
include underway ticks entered raised handled settled

theorem Underway.step : b.Step s.head ⟨s.head.loop, r, i, e, event, next⟩ ⟨next, r.requeued⟩ := by
  obtain ⟨event', handled', stamp, -⟩ := underway.goes ticks entered raised
  cases handled.symm.trans handled'
  refine ⟨rfl, ?_, entered, settled, rfl⟩
  change r.Nondecreasing s.head.clock event.time
  rw [stamp]
  exact ticks.forward

/-- A whole pass is one more turn of the run. -/
theorem Underway.next_turn : Underway p elsewhere b memories (turns ++ [⟨⟨s.head.loop, r, i, e, event, next⟩, raw⟩])
    ⟨⟨next, r.requeued⟩, Function.update s.memories i v.stack⟩ := by
  have step := underway.step ticks entered raised handled settled
  obtain ⟨event', handled', stamp, -⟩ := underway.goes ticks entered raised
  cases handled.symm.trans handled'
  obtain ⟨first, started, run⟩ := underway.run
  refine ⟨underway.hosts, ⟨first, started, .snoc run ⟨step, v, raised.trapped, ?_, rfl⟩⟩, ticks.room⟩
  change handle b.image event.time e.exchange.expected (b.image.framePtr i) raw = .ok event
  rw [stamp]
  exact handled

end turn

/-! ### No panic -/

theorem Underway.stops (underway : Underway p elsewhere b memories turns s) (breaks : b.enter r s.head.loop = .ok none)
    (i : TaskId) : (s.head.loop.tasks i).state = .done :=
  Batch.break_done (Batch.reaches_coherent (Batch.executes_reaches underway.run)) breaks i

/-- All that the report of a batch that has stopped can still complain about
is that MLFQ has demoted nobody. -/
theorem Underway.reports (underway : Underway p elsewhere b memories turns s)
    (done : ∀ i, (s.head.loop.tasks i).state = .done) (failed : b.report s.head.loop = .error cause) :
    cause = .escaped := by
  have timed := Batch.reaches_timed (Batch.executes_reaches underway.run)
  rcases Batch.report_fails timed (fun i => done (b.task i)) failed with rfl | escaped
  · obtain ⟨i, wrong⟩ := Batch.report_error failed
    have waits := Batch.reportTask_timerCount wrong
    have modes := (underway.hosts.runnable _ (List.get_mem b.specs i)).1
    omega
  · exact escaped

/-- A batch of the program gets to its first loop head. -/
theorem Hosts.starts (hosts : Hosts p b) (elsewhere : Machine Memory) (memories : TaskId → Memory) :
    ∃ first, b.start = .ok first ∧ Underway p elsewhere b memories [] ⟨⟨first, b.base⟩, memories⟩ := by
  have small : 20 * T ≤ usizeMax := by decide
  have room := hosts.room
  obtain ⟨first, started, -⟩ := Batch.start_spec (b := b) (by omega)
  exact ⟨first, started, hosts, ⟨first, started, .nil⟩, room⟩

end Neonos.UserScheduler
