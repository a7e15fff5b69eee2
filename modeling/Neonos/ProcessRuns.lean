import Neonos.Model.UserErrors

/-! Runs of single processes, one after another: every trap is answered or ends
its run, what `run_one` returns is decided by that trap alone, and nothing of a
run is left for the next. -/
namespace Neonos.Lesson10

variable {layout : Layout} {code : AddressRange} {k k' : Kernel} {trap last : Trap} {traps : List Trap} {call : Call}
  {calls : List Call}

theorem require_ok {condition : Prop} [Decidable condition] (holds : condition) (panic : Panic) :
    require condition panic = .ok () := if_pos holds

theorem require_panics {condition : Prop} [Decidable condition] (fails : ¬ condition) (panic : Panic) :
    require condition panic = .error panic := if_neg fails

@[simp] theorem ok_bind (a : α) (f : α → Except Panic β) : ((Except.ok a : Except Panic α) >>= f) = f a := rfl

/-! ### The image -/

namespace Layout

def userStack (layout : Layout) : AddressRange := ⟨layout.userStackStart, layout.userStackEnd⟩
def trapStack (layout : Layout) : AddressRange := ⟨layout.userTrapStackStart, layout.userTrapStackEnd⟩
def bootStack (layout : Layout) : AddressRange := ⟨layout.sbootStack, layout.ebootStack⟩
def api (layout : Layout) : AddressRange := ⟨layout.userApiStart, layout.userApiEnd⟩

/-- Where `user_trap_entry` stores the frame of a trap. -/
def frameAddress (layout : Layout) : Word := layout.userTrapStackEnd - BitVec.ofNat 64 TRAP_FRAME_SIZE

/-- The linker script's stacks and ranges: two aligned stacks of 16 KiB, apart
from each other and from the boot stack. -/
structure Sound (layout : Layout) : Prop where
  userSize : layout.userStackStart.toNat + 16384 = layout.userStackEnd.toNat
  trapSize : layout.userTrapStackStart.toNat + 16384 = layout.userTrapStackEnd.toNat
  boot : layout.sbootStack < layout.ebootStack
  api : layout.userApiStart < layout.userApiEnd
  userAligned : layout.userStackEnd.toNat % 16 = 0
  trapAligned : layout.userTrapStackEnd.toNat % 16 = 0
  apart : ¬ layout.userStack.Overlaps layout.trapStack
  userBoot : ¬ layout.userStack.Overlaps layout.bootStack
  trapBoot : ¬ layout.trapStack.Overlaps layout.bootStack

theorem Sound.stackRanges (sound : layout.Sound) :
    layout.stackRanges = .ok (layout.userStack, layout.trapStack, layout.bootStack) := by
  have user : layout.userStackStart < layout.userStackEnd := by
    rw [BitVec.lt_def]
    have size := sound.userSize
    omega
  have trap : layout.userTrapStackStart < layout.userTrapStackEnd := by
    rw [BitVec.lt_def]
    have size := sound.trapSize
    omega
  unfold Layout.stackRanges AddressRange.new
  rw [if_pos user, if_pos trap, if_pos sound.boot]
  rfl

theorem size_of_toNat {start stop : Word} (size : start.toNat + 16384 = stop.toNat) :
    (⟨start, stop⟩ : AddressRange).size = STACK_BYTES := by
  apply BitVec.eq_of_toNat_eq
  have bound := stop.isLt
  rw [AddressRange.size, BitVec.toNat_sub, ← size]
  simp only [STACK_BYTES]
  have small := start.isLt
  simp
  omega

theorem low_bits (address : Word) : address &&& 0xf = 0 ↔ address.toNat % 16 = 0 := by
  have mask : (address &&& 0xf).toNat = address.toNat % 16 := by
    rw [BitVec.toNat_and]
    exact Nat.and_two_pow_sub_one_eq_mod address.toNat 4
  rw [← mask]
  exact ⟨fun none => by rw [none]; rfl, fun none => BitVec.eq_of_toNat_eq none⟩

theorem Sound.initialUserSp (sound : layout.Sound) : ∃ sp, initialUserSp layout.userStack = .ok sp := by
  have size := sound.userSize
  have aligned := sound.userAligned
  have high := layout.userStackEnd.isLt
  have room : (16 : Word) ≤ layout.userStackEnd := by
    rw [BitVec.le_def]
    simp
    omega
  have value : (layout.userStackEnd - 16).toNat = layout.userStackEnd.toNat - 16 := BitVec.toNat_sub_of_le room
  refine ⟨layout.userStackEnd - 16, ?_⟩
  have taken : checkedSub layout.userStack.stop 16 = .ok (layout.userStackEnd - 16) := if_pos room
  unfold Layout.initialUserSp
  rw [taken, ok_bind, require_ok, ok_bind]
  refine ⟨(low_bits _).mpr (by omega), ?_, ?_⟩
  · change layout.userStackStart ≤ layout.userStackEnd - 16
    rw [BitVec.le_def]
    omega
  · change layout.userStackEnd - 16 < layout.userStackEnd
    rw [BitVec.lt_def]
    omega

end Layout

/-! ### Traps of a process -/

/-- An ecall that `dispatch` answers with a value. -/
def Trap.Returns (trap : Trap) (result : Int) : Prop :=
  trap.frame.scause = 8 ∧ Syscall.dispatch (trap.frame.x 17) (trap.frame.x 10) = .ret result

/-- The end of the range that a resume address is checked against. -/
def Layout.resumeEnd (layout : Layout) (code : AddressRange) (sepc : Word) : Word :=
  if layout.api.Contains sepc then layout.api.stop else code.stop

/-- A trap from user mode by a process with this code. -/
structure Trap.Proper (layout : Layout) (code : AddressRange) (trap : Trap) : Prop where
  address : trap.address = layout.frameAddress
  user : trap.frame.sstatus &&& SSTATUS_SPP = 0
  cause : trap.frame.scause = 2 ∨ trap.frame.scause = 8
  inside : code.Contains trap.frame.sepc ∨ layout.api.Contains trap.frame.sepc
  resumes : ∀ result, trap.Returns result →
    ∃ frame, applyReturn trap.frame result (layout.resumeEnd code trap.frame.sepc) = .ok frame

/-- A frame that resumes its process with a result: `x10`, `sepc` and three bits
of `sstatus` are new and nothing else. -/
structure Resumed (before after : TrapFrame) (result : Int) : Prop where
  registers : ∀ i, i ≠ 10 → after.x i = before.x i
  result : after.x 10 = BitVec.ofInt 64 result
  sepc : after.sepc.toNat = before.sepc.toNat + 4
  cleared : ∀ bit, bit = 1 ∨ bit = 5 ∨ bit = 8 → after.sstatus.getLsbD bit = false
  status : ∀ bit, bit ≠ 1 ∧ bit ≠ 5 ∧ bit ≠ 8 → after.sstatus.getLsbD bit = before.sstatus.getLsbD bit
  scause : after.scause = before.scause
  stval : after.stval = before.stval

/-- The outcome of the trap that ends a run. -/
structure Trap.Ends (trap : Trap) (outcome : RunOutcome) : Prop where
  exited : ∀ code : BitVec 8, outcome = .exited code ↔
    trap.frame.scause = 8 ∧ trap.frame.x 17 = 2 ∧ trap.frame.x 10 = code.setWidth 64
  faulted : (∀ code, outcome ≠ .exited code) →
    outcome = .faulted trap.frame.scause trap.frame.sepc trap.frame.stval

theorem user_bits (bit : Nat) (inside : bit < 64) : (~~~(SSTATUS_SPP ||| SSTATUS_SPIE ||| SSTATUS_SIE)).getLsbD bit =
    decide (bit ≠ 1 ∧ bit ≠ 5 ∧ bit ≠ 8) := by
  revert bit
  decide

theorem applyReturn_resumed {before after : TrapFrame} (applied : applyReturn before result stop = .ok after) :
    Resumed before after result := by
  unfold applyReturn at applied
  by_cases room : before.sepc.toNat + 4 ≤ usizeMax
  · rw [require_ok room, ok_bind] at applied
    dsimp only at applied
    by_cases below : before.sepc + 4 ≤ stop
    · rw [require_ok below, ok_bind] at applied
      cases applied
      have kept (bit : Nat) : (userStatus before.sstatus).getLsbD bit =
          (before.sstatus.getLsbD bit && decide (bit ≠ 1 ∧ bit ≠ 5 ∧ bit ≠ 8)) := by
        rw [userStatus, BitVec.getLsbD_and]
        by_cases inside : bit < 64
        · rw [user_bits bit inside]
        · rw [BitVec.getLsbD_of_ge before.sstatus bit (Nat.le_of_not_lt inside), Bool.false_and, Bool.false_and]
      constructor
      · intro i other
        exact Function.update_of_ne other _ before.x
      · exact Function.update_self 10 _ before.x
      · change (before.sepc + 4).toNat = _
        have small : before.sepc.toNat + 4 < 2 ^ 64 := by
          unfold usizeMax at room
          omega
        rw [BitVec.toNat_add]
        exact Nat.mod_eq_of_lt small
      · intro bit one
        rw [kept bit, decide_eq_false (by omega), Bool.and_false]
      · intro bit others
        rw [kept bit, decide_eq_true others, Bool.and_true]
      · rfl
      · rfl
    · rw [require_panics below] at applied
      cases applied
  · rw [require_panics room] at applied
    cases applied

/-! ### The handler -/

/-- No trap has been seen yet, or every trap so far was at the one address. -/
def Kernel.Fresh (layout : Layout) (k : Kernel) : Prop :=
  k.expectedTrapFrame = 0 ∨ k.expectedTrapFrame = layout.frameAddress

theorem Kernel.Fresh.record (fresh : k.Fresh layout) :
    k.recordTrapFrame layout.frameAddress = .ok { k with expectedTrapFrame := layout.frameAddress } := by
  unfold Kernel.recordTrapFrame
  rcases fresh with zero | same
  · rw [if_pos zero]
  · rw [if_neg (not_not.mpr same)]
    split
    · rfl
    · rw [← same]

theorem Layout.Sound.top (sound : layout.Sound) :
    checkedSub layout.trapStack.stop (BitVec.ofNat 64 TRAP_FRAME_SIZE) = .ok layout.frameAddress := by
  have size := sound.trapSize
  apply if_pos
  rw [BitVec.le_def]
  change 288 ≤ layout.userTrapStackEnd.toNat
  omega

/-- Every check of `handle` on a trap from user mode passes. -/
theorem handle_passes (sound : layout.Sound) (proper : trap.Proper layout k.active.code) (fresh : k.Fresh layout)
    (vector : k.stvec = layout.trapEntry) :
    handle layout k trap.address trap.frame =
      if trap.frame.scause = 8 then
        match Syscall.dispatch (trap.frame.x 17) (trap.frame.x 10) with
        | .ret result => do
          let frame ← applyReturn trap.frame result (layout.resumeEnd k.active.code trap.frame.sepc)
          .ok (ACTION_RESUME_USER, frame, { k with expectedTrapFrame := layout.frameAddress })
        | .exit code => .ok (ACTION_TERMINATE_PROCESS, trap.frame,
            { k with expectedTrapFrame := layout.frameAddress }.complete (.exited code))
      else .ok (ACTION_TERMINATE_PROCESS, trap.frame, { k with expectedTrapFrame := layout.frameAddress }.complete
        (.faulted trap.frame.scause trap.frame.sepc trap.frame.stval)) := by
  have api : AddressRange.new layout.userApiStart layout.userApiEnd = .ok layout.api := if_pos sound.api
  have exception : trap.frame.scause >>> 63 = 0 := by
    rcases proper.cause with cause | cause <;>
    · rw [cause]
      rfl
  unfold handle
  rw [sound.stackRanges, ok_bind]
  dsimp only
  rw [sound.top, ok_bind, require_ok proper.address, ok_bind, proper.address, fresh.record, ok_bind,
    require_ok proper.user, ok_bind, require_ok exception, ok_bind, require_ok vector, ok_bind, api, ok_bind,
    require_ok proper.inside, ok_bind]
  split
  · rfl
  · rename_i other
    rw [if_pos (proper.cause.resolve_right other)]

theorem handle_resumes (sound : layout.Sound) (proper : trap.Proper layout code) (returns : trap.Returns result) :
    ∃ frame, Resumed trap.frame frame result ∧ ∀ k : Kernel, k.Fresh layout → k.stvec = layout.trapEntry →
      k.active.code = code → handle layout k trap.address trap.frame =
        .ok (ACTION_RESUME_USER, frame, { k with expectedTrapFrame := layout.frameAddress }) := by
  obtain ⟨frame, applied⟩ := proper.resumes result returns
  refine ⟨frame, applyReturn_resumed applied, ?_⟩
  intro k fresh vector own
  subst own
  rw [handle_passes sound proper fresh vector, if_pos returns.1, returns.2]
  dsimp only
  rw [applied, ok_bind]

theorem dispatch_exit {number argument : Word} {code : BitVec 8} :
    Syscall.dispatch number argument = .exit code ↔ number = 2 ∧ argument = code.setWidth 64 := by
  have putchar : (2 : Word) ≠ Syscall.SYSCALL_PUTCHAR := by decide
  constructor
  · intro exits
    unfold Syscall.dispatch at exits
    split at exits
    · split at exits <;> cases exits
    · split at exits
      · rename_i number_
        split at exits
        · cases exits
        · rename_i within
          cases exits
          refine ⟨number_, ?_⟩
          apply BitVec.eq_of_toNat_eq
          rw [BitVec.lt_def] at within
          have small : argument.toNat < 256 := Nat.lt_succ_of_le (Nat.le_of_not_lt within)
          simp
          omega
      · cases exits
  · intro ⟨exit, same⟩
    have within : ¬ (0xff : Word) < code.setWidth 64 := by
      rw [BitVec.lt_def]
      have bound := code.isLt
      simp
      omega
    unfold Syscall.dispatch
    rw [exit, same, if_neg putchar, if_pos (show (2 : Word) = Syscall.SYSCALL_EXIT from rfl), if_neg within]
    simp

theorem handle_ends (sound : layout.Sound) (proper : trap.Proper layout code) (stops : ∀ result, ¬ trap.Returns result) :
    ∃ outcome, trap.Ends outcome ∧ ∀ k : Kernel, k.Fresh layout → k.stvec = layout.trapEntry →
      k.active.code = code → handle layout k trap.address trap.frame = .ok (ACTION_TERMINATE_PROCESS, trap.frame,
        { k with expectedTrapFrame := layout.frameAddress }.complete outcome) := by
  by_cases ecall : trap.frame.scause = 8
  · cases dispatched : Syscall.dispatch (trap.frame.x 17) (trap.frame.x 10) with
    | ret result => exact absurd ⟨ecall, dispatched⟩ (stops result)
    | exit code =>
      refine ⟨.exited code, ⟨?_, fun none => absurd rfl (none code)⟩, ?_⟩
      · intro other
        constructor
        · intro same
          cases same
          exact ⟨ecall, dispatch_exit.mp dispatched⟩
        · intro ⟨_, exits⟩
          rw [← dispatch_exit, dispatched] at exits
          cases exits
          rfl
      · intro k fresh vector own
        subst own
        rw [handle_passes sound proper fresh vector, if_pos ecall, dispatched]
  · refine ⟨.faulted trap.frame.scause trap.frame.sepc trap.frame.stval, ⟨?_, fun _ => rfl⟩, ?_⟩
    · intro code
      constructor
      · intro same
        cases same
      · intro ⟨other, _⟩
        exact absurd other ecall
    · intro k fresh vector own
      subst own
      rw [handle_passes sound proper fresh vector, if_neg ecall]

/-! ### One run -/

/-- The answers to the traps of a run and the outcome that it ends with, if it
ends: every ecall with a value resumes the process, and the first other trap
is the last one. -/
inductive Answered : List Trap → List Answer → Option RunOutcome → Prop
  | waits : Answered [] [] none
  | resumes {head : Trap} (returns : head.Returns result) (resumed : Resumed head.frame frame result)
      (rest : Answered tail answers ended) :
      Answered (head :: tail) (⟨ACTION_RESUME_USER, frame, none⟩ :: answers) ended
  | ends {head : Trap} (stops : ∀ result, ¬ head.Returns result) (ends : head.Ends outcome) :
      Answered (head :: tail) [⟨ACTION_TERMINATE_PROCESS, head.frame, some outcome⟩] (some outcome)

/-- From an empty mailbox the answers depend on the traps alone, and the mailbox
holds the outcome afterwards. -/
theorem runUser_answers (sound : layout.Sound) (proper : ∀ trap ∈ traps, trap.Proper layout code) :
    ∃ answers ended, Answered traps answers ended ∧ ∀ k : Kernel, k.Fresh layout → k.active = ⟨code, none⟩ →
      ∃ k', runUser layout k traps = .ok (answers, k', ended.map fun _ => ACTION_TERMINATE_PROCESS) ∧
        k'.active = ⟨code, ended⟩ ∧ k'.Fresh layout := by
  induction traps with
  | nil => exact ⟨[], none, .waits, fun k fresh own => ⟨_, rfl, own, fresh⟩⟩
  | cons trap traps following =>
    have first := proper trap List.mem_cons_self
    by_cases returns : ∃ result, trap.Returns result
    · obtain ⟨result, returns⟩ := returns
      obtain ⟨frame, resumed, handled⟩ := handle_resumes sound first returns
      obtain ⟨answers, ended, answered, continues⟩ :=
        following fun later mem => proper later (List.mem_cons_of_mem trap mem)
      refine ⟨⟨ACTION_RESUME_USER, frame, none⟩ :: answers, ended, .resumes returns resumed answered, ?_⟩
      intro k fresh own
      obtain ⟨k', ran, active, fresh'⟩ := continues
        { k with stvec := layout.trapEntry, expectedTrapFrame := layout.frameAddress } (.inr rfl) own
      refine ⟨k', ?_, active, fresh'⟩
      have empty : k.active.outcome = none := by rw [own]
      rw [runUser, handled { k with stvec := layout.trapEntry } fresh rfl (congrArg Active.code own), ok_bind]
      dsimp only
      rw [if_neg (by decide), ran, ok_bind, empty]
    · have stops := not_exists.mp returns
      obtain ⟨outcome, ends, handled⟩ := handle_ends sound first stops
      refine ⟨[⟨ACTION_TERMINATE_PROCESS, trap.frame, some outcome⟩], some outcome, .ends stops ends, ?_⟩
      intro k fresh own
      refine ⟨{ k with stvec := layout.trapEntry, expectedTrapFrame := layout.frameAddress }.complete outcome, ?_,
        ?_, .inr rfl⟩
      · rw [runUser, handled { k with stvec := layout.trapEntry } fresh rfl (congrArg Active.code own), ok_bind]
        dsimp only
        rw [if_pos rfl]
        rfl
      · rw [Kernel.complete, own]

/-- The arguments and traps of a run that none of the manager's checks refuses. -/
structure Call.Proper (layout : Layout) (call : Call) : Prop where
  code : call.start < call.stop
  entry : call.start &&& 1 = 0
  interrupts : call.hart.sie = 0
  manager : ¬ (layout.userStack.Contains call.hart.sp ∨ layout.trapStack.Contains call.hart.sp)
  traps : ∀ trap ∈ call.traps, trap.Proper layout ⟨call.start, call.stop⟩

def RunOutcome.state : RunOutcome → ProcessState
  | .exited code => .exited code.toNat
  | .faulted cause sepc stval => .faulted ⟨cause, sepc, stval⟩

/-- The process of a run that has returned: ready, running, the state of the
outcome, and no state after it. -/
structure Finished.Lifecycle (pid : BitVec 64) (f : Finished) : Prop where
  ready : ∃ created : Process, created.id = pid ∧ created.state = .ready ∧ created.start = .ok f.entered
  running : f.entered.state = .running
  ended : f.entered.transition f.outcome.state = .ok f.process
  state : f.process.state = f.outcome.state
  final : ∀ next, ∃ refused, f.process.transition next = .error refused

/-- A run as its own traps decide it, whatever the statics were before it. -/
structure RunOf.Classified (layout : Layout) (call : Call) (run : RunOf) : Prop where
  answered : Answered call.traps run.answers (run.finished.map Finished.outcome)
  lifecycle : ∀ f, run.finished = some f → f.Lifecycle call.pid
  alone : ∀ k : Kernel, k.Fresh layout → ∃ k', runOne layout k call = .ok (run, k') ∧ k'.Fresh layout ∧
    k'.active.outcome = none

theorem userStatus_trusted (sstatus : Word) : userStatus sstatus &&& SSTATUS_SPP = 0 := by
  have masked : ~~~(SSTATUS_SPP ||| SSTATUS_SPIE ||| SSTATUS_SIE) &&& SSTATUS_SPP = 0 := by decide
  rw [userStatus, BitVec.and_assoc, masked]
  exact BitVec.and_zero

/-- `prepare_process` refuses nothing here and its process is running. -/
theorem Layout.Sound.prepares (sound : layout.Sound) (proper : call.Proper layout) (program : Program)
    (entry : program.entry = call.start) :
    ∃ (created entered : Process) (runtime : UserRuntime),
      layout.prepareProcess call.hart call.pid program layout.userStack layout.trapStack = .ok entered ∧
      created.id = call.pid ∧ created.state = .ready ∧ created.start = .ok entered ∧ entered.state = .running ∧
      entered.userRuntime = .ok runtime := by
  obtain ⟨sp, pointer⟩ := sound.initialUserSp
  have sizes : layout.userStack.size = STACK_BYTES ∧ layout.trapStack.size = STACK_BYTES :=
    ⟨Layout.size_of_toNat sound.userSize, Layout.size_of_toNat sound.trapSize⟩
  have apart : ¬ (layout.userStack.Overlaps layout.trapStack ∨ layout.userStack.Overlaps layout.bootStack ∨
      layout.trapStack.Overlaps layout.bootStack) := by
    rintro (overlap | overlap | overlap)
    · exact sound.apart overlap
    · exact sound.userBoot overlap
    · exact sound.trapBoot overlap
  have ranges : layout.validateRuntimeRanges layout.userStack layout.trapStack = .ok () := by
    unfold Layout.validateRuntimeRanges
    rw [sound.stackRanges, ok_bind]
    dsimp only
    rw [require_ok sizes, ok_bind, require_ok apart]
  have aligned : layout.trapStack.stop &&& 0xf = 0 := (Layout.low_bits _).mpr sound.trapAligned
  have even : program.entry &&& 0x1 = 0 := by
    rw [entry]
    exact proper.entry
  let runtime : UserRuntime := ⟨layout.userStack, layout.trapStack,
    UserContext.new program.entry sp (userStatus call.hart.sstatus)⟩
  refine ⟨⟨call.pid, program, .ready, some runtime⟩, ⟨call.pid, program, .running, some runtime⟩, runtime,
    ?_, rfl, rfl, rfl, rfl, rfl⟩
  unfold Layout.prepareProcess
  rw [ranges, ok_bind, require_ok aligned, ok_bind, require_ok even, ok_bind, require_ok proper.interrupts, ok_bind]
  dsimp only
  rw [require_ok (userStatus_trusted call.hart.sstatus), ok_bind, pointer, ok_bind]
  rfl

/-- A running process takes the state of any outcome, which is its last. -/
theorem finish_running {f : Finished} {pid : BitVec 64}
    (ready : ∃ created : Process, created.id = pid ∧ created.state = .ready ∧ created.start = .ok f.entered)
    (running : f.entered.state = .running) (ended : f.process = { f.entered with state := f.outcome.state }) :
    f.Lifecycle pid := by
  have state : f.process.state = f.outcome.state := by rw [ended]
  refine ⟨ready, running, ?_, state, ?_⟩
  · unfold Process.transition
    rw [running, ended]
    cases f.outcome <;> rfl
  · intro next
    refine ⟨⟨f.process.state, next⟩, ?_⟩
    unfold Process.transition
    rw [state]
    apply if_neg
    cases f.outcome <;> exact id

theorem advance_ok {process : Process} {next : ProcessState} (allowed : Process.Allowed process.state next) :
    process.advance next = .ok { process with state := next } := by
  rw [Process.advance, Process.transition, if_pos allowed]
  rfl

theorem allowed_outcome {process : Process} (running : process.state = .running) (outcome : RunOutcome) :
    Process.Allowed process.state outcome.state := by
  rw [running]
  cases outcome <;> trivial

theorem Kernel.takeOutcome_some {outcome : RunOutcome} (held : k.active.outcome = some outcome) :
    k.takeOutcome = .ok (outcome, { k with active := { k.active with outcome := none } }) := by
  unfold Kernel.takeOutcome
  rw [held]

theorem runOne_classified (sound : layout.Sound) (proper : call.Proper layout) :
    ∃ run : RunOf, run.Classified layout call := by
  let program : Program := ⟨call.name, call.start, call.start, call.stop⟩
  have linked : Program.fromLinked call.name call.start call.start call.stop = .ok program := by
    have inside : call.start ≤ call.start ∧ call.start < call.stop := ⟨BitVec.le_refl _, proper.code⟩
    unfold Program.fromLinked
    rw [require_ok proper.code, ok_bind, require_ok inside, ok_bind]
  have cleared : clearRuntimeStacks call.hart layout.userStack layout.trapStack = .ok () := require_ok proper.manager _
  obtain ⟨created, entered, runtime, prepared, pid, ready, started, running, attached⟩ :=
    sound.prepares proper program rfl
  obtain ⟨answers, ended, answered, ran⟩ := runUser_answers sound proper.traps
  let run : RunOf := ⟨answers, ended.map fun outcome => ⟨outcome, entered, { entered with state := outcome.state }⟩⟩
  refine ⟨run, ?_, ?_, ?_⟩
  · cases ended <;> exact answered
  · intro f returned
    obtain ⟨outcome, -, rfl⟩ := Option.map_eq_some_iff.mp returned
    exact finish_running ⟨created, pid, ready, started⟩ running rfl
  · intro k fresh
    obtain ⟨k', user, active, fresh'⟩ := ran { k with active := ⟨program.codeRange, none⟩ } fresh rfl
    unfold runOne
    rw [linked, ok_bind, sound.stackRanges, ok_bind]
    dsimp only
    rw [cleared, ok_bind, prepared, ok_bind, attached, ok_bind, user, ok_bind]
    dsimp only
    cases ended with
    | none => exact ⟨k', rfl, fresh', congrArg Active.outcome active⟩
    | some outcome =>
      have held : k'.active.outcome = some outcome := by rw [active]
      refine ⟨{ k' with active := { k'.active with outcome := none } }, ?_, fresh', rfl⟩
      dsimp only [Option.map_some]
      rw [require_ok rfl, ok_bind, Kernel.takeOutcome_some held, ok_bind]
      dsimp only
      cases outcome with
      | exited code =>
        have ends : entered.finishExit code = .ok { entered with state := .exited code.toNat } :=
          advance_ok (allowed_outcome running (.exited code))
        dsimp only
        rw [ends, ok_bind, require_ok ⟨nofun, nofun⟩, ok_bind, ok_bind]
        rfl
      | faulted cause sepc stval =>
        have ends : entered.finishFault ⟨cause, sepc, stval⟩ =
            .ok { entered with state := .faulted ⟨cause, sepc, stval⟩ } :=
          advance_ok (allowed_outcome running (.faulted cause sepc stval))
        dsimp only
        rw [ends, ok_bind, require_ok ⟨nofun, nofun⟩, ok_bind, ok_bind]
        rfl

/-! ### One run after another -/

/-- The runs of a list of calls: each is classified, and the next call is made
once the run has returned. -/
inductive Classified (layout : Layout) : List Call → List RunOf → Prop
  | nil : Classified layout [] []
  | waits {first : Call} {run : RunOf} (classified : run.Classified layout first) (waits : run.finished = none) :
      Classified layout (first :: later) [run]
  | returns {first : Call} {run : RunOf} (classified : run.Classified layout first)
      (returned : run.finished = some f) (rest : Classified layout later runs) :
      Classified layout (first :: later) (run :: runs)

/-- **Process runs.** Over any sequence of calls and traps every ecall with a value
resumes its process and the first other trap decides the outcome, the process
and the result, for this run alone; no outcome is left in the mailbox. -/
theorem processes_classified (sound : layout.Sound) (proper : ∀ call ∈ calls, call.Proper layout)
    (fresh : k.Fresh layout) :
    ∃ runs k', session layout k calls = .ok (runs, k') ∧ Classified layout calls runs ∧
      (calls ≠ [] → k'.active.outcome = none) := by
  induction calls generalizing k with
  | nil => exact ⟨[], k, rfl, .nil, fun some => absurd rfl some⟩
  | cons call calls following =>
    obtain ⟨run, classified⟩ := runOne_classified sound (proper call List.mem_cons_self)
    obtain ⟨k₁, ran, fresh₁, empty⟩ := classified.alone k fresh
    cases finished : run.finished with
    | none =>
      refine ⟨[run], k₁, ?_, .waits classified finished, fun _ => empty⟩
      rw [session, ran, ok_bind]
      dsimp only
      rw [finished]
    | some f =>
      obtain ⟨runs, k₂, rest, later, emptied⟩ :=
        following (fun later mem => proper later (List.mem_cons_of_mem call mem)) fresh₁
      refine ⟨run :: runs, k₂, ?_, .returns classified finished later, ?_⟩
      · rw [session, ran, ok_bind]
        dsimp only
        rw [finished]
        dsimp only
        rw [rest, ok_bind]
      · intro _
        cases calls with
        | nil =>
          cases rest
          exact empty
        | cons next calls => exact emptied (List.cons_ne_nil next calls)

/-! ### An image and two calls -/

def lessonLayout : Layout where
  userStackStart := 0x80010000
  userStackEnd := 0x80014000
  userTrapStackStart := 0x80014000
  userTrapStackEnd := 0x80018000
  sbootStack := 0x80018000
  ebootStack := 0x8001c000
  userApiStart := 0x80005000
  userApiEnd := 0x80005100
  trapEntry := 0x80000100
  userTrapEntry := 0x80000200

theorem lessonLayout_sound : lessonLayout.Sound where
  userSize := by decide
  trapSize := by decide
  boot := by decide
  api := by decide
  userAligned := by decide
  trapAligned := by decide
  apart := by decide
  userBoot := by decide
  trapBoot := by decide

/-- A trap in the code of a process, with `a7` and `a0`. -/
def lessonTrap (cause sepc number argument : Word) : Trap where
  address := 0x80017ee0
  frame := { (ZERO_FRAME.setX 17 number).setX 10 argument with sepc, scause := cause }

def lessonCall (pid : BitVec 64) (traps : List Trap) : Call :=
  ⟨pid, "user", 0x80004000, 0x80004100, ⟨0, 0x122, 0x8001bf00⟩, traps⟩

/-- `exit(256)`, which is invalid, before `exit(7)`; then an illegal instruction. -/
def lessonCalls : List Call :=
  [lessonCall 1 [lessonTrap 8 0x80004010 2 256, lessonTrap 8 0x80004020 2 7],
    lessonCall 2 [lessonTrap 2 0x80004000 0 0]]

theorem lessonCall_proper (traps : ∀ trap ∈ found, trap.Proper lessonLayout ⟨0x80004000, 0x80004100⟩) :
    (lessonCall pid found).Proper lessonLayout where
  code := by
    change (0x80004000 : Word) < 0x80004100
    decide
  entry := by
    change (0x80004000 : Word) &&& 1 = 0
    decide
  interrupts := rfl
  manager := by
    change ¬ (lessonLayout.userStack.Contains 0x8001bf00 ∨ lessonLayout.trapStack.Contains 0x8001bf00)
    decide
  traps := traps

theorem lessonTrap_proper (cause sepc number argument : Word) (known : cause = 2 ∨ cause = 8)
    (inside : (⟨0x80004000, 0x80004100⟩ : AddressRange).Contains sepc) (room : sepc + 4 ≤ 0x80004100)
    (foreign : ¬ lessonLayout.api.Contains sepc) :
    (lessonTrap cause sepc number argument).Proper lessonLayout ⟨0x80004000, 0x80004100⟩ where
  address := by
    change (0x80017ee0 : Word) = lessonLayout.frameAddress
    decide
  user := by
    change (0 : Word) &&& SSTATUS_SPP = 0
    decide
  cause := known
  inside := .inl inside
  resumes := by
    intro result returns
    have bound : sepc.toNat + 4 ≤ usizeMax := by
      have below := inside.2
      rw [BitVec.lt_def] at below
      change sepc.toNat < 0x80004100 at below
      unfold usizeMax
      omega
    have stop : lessonLayout.resumeEnd ⟨0x80004000, 0x80004100⟩ sepc = 0x80004100 := if_neg foreign
    unfold applyReturn
    change ∃ frame, (require (sepc.toNat + 4 ≤ usizeMax) Panic.sepcOverflow >>= fun _ => _) = _
    rw [require_ok bound, ok_bind]
    change ∃ frame, (require (sepc + 4 ≤ lessonLayout.resumeEnd _ sepc) Panic.pcEscaped >>= fun _ => _) = _
    rw [stop, require_ok room, ok_bind]
    exact ⟨_, rfl⟩

theorem lesson_processes :
    ∃ runs k', session lessonLayout ⟨⟨⟨0, 0⟩, some (.exited 9)⟩, 0, 0⟩ lessonCalls = .ok (runs, k') ∧
      Classified lessonLayout lessonCalls runs ∧ (lessonCalls ≠ [] → k'.active.outcome = none) := by
  apply processes_classified lessonLayout_sound ?_ (.inl rfl)
  intro call mem
  rcases List.mem_cons.mp mem with rfl | mem
  · apply lessonCall_proper
    intro trap mem
    rcases List.mem_cons.mp mem with rfl | mem
    · exact lessonTrap_proper 8 0x80004010 2 256 (.inr rfl) (by decide) (by decide) (by decide)
    · cases List.mem_singleton.mp mem
      exact lessonTrap_proper 8 0x80004020 2 7 (.inr rfl) (by decide) (by decide) (by decide)
  · cases List.mem_singleton.mp mem
    apply lessonCall_proper
    intro trap mem
    cases List.mem_singleton.mp mem
    exact lessonTrap_proper 2 0x80004000 0 0 (.inl rfl) (by decide) (by decide) (by decide)

end Neonos.Lesson10
