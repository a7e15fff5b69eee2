import Neonos.Fallible
import Neonos.LessonSteps

/-! Lesson 10 with its real programs: `run` starts 103 processes one after the
other, each of them does what its assertion expects, and the manager comes to
the end of its list. -/
namespace Neonos.LessonRuns
open Lesson10 UserPrograms ByteMemory Rv64Linked Rv64User Rv64.Reg
open Scheduler (User Machine exceptionCause)

/-- What the lessons rely on: a sound layout, the programs where the linker put
them, and the manager on a stack of its own with interrupts off. -/
structure Ground (layout : Layout) (image : Image) (hart : Lesson10.Hart) : Prop where
  sound : layout.Sound
  linked : image.Linked
  interrupts : hart.sie = 0
  manager : ¬ (layout.userStack.Contains hart.sp ∨ layout.trapStack.Contains hart.sp)

/-- For lesson 10 also the API where the layout has it, apart from the programs. -/
structure Setting (layout : Layout) (image : Image) (hart : Lesson10.Hart) : Prop extends Ground layout image hart where
  apiStart : layout.userApiStart = image.code.addr .user_api_putchar
  apiEnd : layout.userApiEnd = image.user_api_end
  apart : ∀ job ∈ jobs image, ∀ pc, (⟨job.start, job.stop⟩ : AddressRange).Contains pc → ¬ layout.api.Contains pc

variable {layout : Layout} {image : Image} {elsewhere : Machine Memory} {hart : Lesson10.Hart} {firstPid : BitVec 64}
  {job : Job} {traps : List Trap} {trap : Trap} {k : Lesson10.Kernel} {n : Nat}

/-! ### `run_one` on the traps of a process -/

/-- Traps of a process that have all resumed it. -/
def Calm (layout : Layout) (job : Job) (traps : List Trap) : Prop :=
  ∀ trap ∈ traps, trap.Proper layout ⟨job.start, job.stop⟩ ∧ ∃ result, trap.Returns result

theorem Calm.nil : Calm layout job [] := fun _ member => absurd member List.not_mem_nil

theorem Calm.snoc (calm : Calm layout job traps) (proper : trap.Proper layout ⟨job.start, job.stop⟩)
    (returns : trap.Returns result) : Calm layout job (traps ++ [trap]) := by
  intro t member
  rcases List.mem_append.mp member with early | late
  · exact calm t early
  · cases List.mem_singleton.mp late
    exact ⟨proper, result, returns⟩

theorem answered_nil (answered : Lesson10.Answered [] answers ended) : answers = [] ∧ ended = none := by
  cases answered
  exact ⟨rfl, rfl⟩

/-- Behind traps that resumed it the process has been resumed once more. -/
theorem answered_resumed (calm : ∀ t ∈ traps, ∃ result, t.Returns result) (returns : trap.Returns result)
    (answered : Lesson10.Answered (traps ++ [trap]) answers ended) :
    ended = none ∧ ∃ frame, answers.getLast? = some ⟨ACTION_RESUME_USER, frame, none⟩ ∧
      Resumed trap.frame frame result := by
  induction traps generalizing answers with
  | nil =>
    cases answered with
    | resumes returns' resumed rest =>
      obtain ⟨rfl, rfl⟩ := answered_nil rest
      cases returns.2.symm.trans returns'.2
      exact ⟨rfl, _, rfl, resumed⟩
    | ends stops => exact absurd returns (stops result)
  | cons first traps ih =>
    cases answered with
    | resumes _ _ rest =>
      obtain ⟨none_, frame, last, resumed⟩ := ih (fun t member => calm t (List.mem_cons_of_mem first member)) rest
      refine ⟨none_, frame, ?_, resumed⟩
      rw [List.getLast?_cons, last]
      rfl
    | ends stops =>
      obtain ⟨result, returns⟩ := calm first List.mem_cons_self
      exact absurd returns (stops result)

theorem answered_ended (calm : ∀ t ∈ traps, ∃ result, t.Returns result) (stops : ∀ result, ¬ trap.Returns result)
    (answered : Lesson10.Answered (traps ++ [trap]) answers ended) : ∃ outcome, trap.Ends outcome ∧ ended = some outcome := by
  induction traps generalizing answers with
  | nil =>
    cases answered with
    | resumes returns => exact absurd returns (stops _)
    | ends _ ends => exact ⟨_, ends, rfl⟩
  | cons first traps ih =>
    cases answered with
    | resumes _ _ rest => exact ih (fun t member => calm t (List.mem_cons_of_mem first member)) rest
    | ends stops =>
      obtain ⟨result, returns⟩ := calm first List.mem_cons_self
      exact absurd returns (stops result)

/-- The arguments of the `n`-th `run_one`. -/
def callOf (hart : Lesson10.Hart) (firstPid : BitVec 64) (n : Nat) (job : Job) (traps : List Trap) : Lesson10.Call :=
  ⟨firstPid + BitVec.ofNat 64 n, job.name, job.start, job.stop, hart, traps⟩

/-- A job whose range a process can be made for. -/
structure Job.Fits (job : Job) : Prop where
  range : job.start < job.stop
  even : job.start &&& 1 = 0

theorem Setting.proper (setting : Setting layout image hart) (fits : job.Fits) (firstPid : BitVec 64) (n : Nat)
    (traps_ : ∀ t ∈ traps, t.Proper layout ⟨job.start, job.stop⟩) :
    (callOf hart firstPid n job traps).Proper layout :=
  ⟨fits.range, fits.even, setting.interrupts, setting.manager, traps_⟩

/-- A process that `run_one` has launched: its run enters user mode at the
start of its code and near the top of the user stack. -/
structure Launched (layout : Layout) (job : Job) (process : Process) (runtime : UserRuntime) : Prop where
  user : process.user = some runtime
  sp : runtime.context.x 2 = layout.userStackEnd - 16
  sepc : runtime.context.sepc = job.start

theorem initialUserSp_value (pointer : Layout.initialUserSp stack = .ok userSp) : userSp = stack.stop - 16 := by
  unfold Layout.initialUserSp at pointer
  obtain ⟨_, lowered, pointer⟩ := bind_ok.mp pointer
  obtain ⟨_, -, pointer⟩ := bind_ok.mp pointer
  cases pointer
  unfold checkedSub at lowered
  split at lowered
  · cases lowered
    rfl
  · cases lowered

/-- What `prepare_process` attaches to its process. -/
theorem prepared_runtime (prepared : layout.prepareProcess hart pid program userStack trapStack = .ok process) :
    ∃ runtime, process.user = some runtime ∧ runtime.context.x 2 = userStack.stop - 16 ∧
      runtime.context.sepc = program.entry := by
  unfold Layout.prepareProcess at prepared
  obtain ⟨_, -, prepared⟩ := bind_ok.mp prepared
  obtain ⟨_, -, prepared⟩ := bind_ok.mp prepared
  obtain ⟨_, -, prepared⟩ := bind_ok.mp prepared
  obtain ⟨_, -, prepared⟩ := bind_ok.mp prepared
  obtain ⟨_, -, prepared⟩ := bind_ok.mp prepared
  obtain ⟨userSp, pointer, prepared⟩ := bind_ok.mp prepared
  obtain ⟨attached, attach, prepared⟩ := bind_ok.mp prepared
  obtain ⟨started, start, prepared⟩ := bind_ok.mp prepared
  obtain ⟨_, -, prepared⟩ := bind_ok.mp prepared
  cases attach
  cases start
  cases prepared
  exact ⟨_, rfl, initialUserSp_value pointer ▸ rfl, rfl⟩

theorem Setting.launches (setting : Setting layout image hart) (fits : job.Fits) (firstPid : BitVec 64) (n : Nat)
    (traps : List Trap) :
    ∃ process runtime, launch layout (callOf hart firstPid n job traps) = .ok process ∧
      Launched layout job process runtime := by
  let program : Program := ⟨job.name, job.start, job.start, job.stop⟩
  have proper : (callOf hart firstPid n job []).Proper layout := setting.proper fits firstPid n (by simp)
  have linked : Program.fromLinked job.name job.start job.start job.stop = .ok program := by
    have inside : job.start ≤ job.start ∧ job.start < job.stop := ⟨BitVec.le_refl _, fits.range⟩
    unfold Program.fromLinked
    rw [require_ok fits.range, ok_bind, require_ok inside, ok_bind]
  have cleared : clearRuntimeStacks hart layout.userStack layout.trapStack = .ok () := require_ok setting.manager _
  obtain ⟨-, entered, -, prepared, -⟩ := setting.sound.prepares proper program rfl
  obtain ⟨runtime, user, sp, sepc⟩ := prepared_runtime prepared
  refine ⟨entered, runtime, ?_, user, sp, sepc⟩
  unfold launch callOf
  dsimp only
  rw [linked, ok_bind, setting.sound.stackRanges, ok_bind]
  dsimp only
  rw [cleared, ok_bind]
  exact prepared

theorem transition_id {process moved : Process} (allowed : process.transition next = .ok moved) :
    moved.id = process.id := by
  unfold Process.transition at allowed
  split at allowed
  · cases allowed
    rfl
  · cases allowed

section one
variable (setting : Setting layout image hart) (job_ : (jobs image)[n]? = some job) (fits : job.Fits)
  (pids : firstPid.toNat + n < 2 ^ 64) (fresh : k.Fresh layout)
include setting job_ fits pids fresh

/-- The `n`-th `run_one` is as the classification of its run says. -/
theorem one10_classified (proper : ∀ t ∈ traps, t.Proper layout ⟨job.start, job.stop⟩) :
    ∃ run k' process runtime, RunOf.Classified layout (callOf hart firstPid n job traps) run ∧ k'.Fresh layout ∧
      Launched layout job process runtime ∧
      one10 layout image hart firstPid n traps k =
        match run.finished with
        | some f => if job.expected f.outcome then .ok (.ended f.process, k') else .error (.unexpected f.outcome)
        | none =>
          match run.answers.getLast? with
          | some answer => .ok (.resumed answer.frame, k')
          | none => .ok (.entered process, k') := by
  obtain ⟨run, classified⟩ := runOne_classified setting.sound (setting.proper fits firstPid n proper)
  obtain ⟨k', ran, fresh', -⟩ := classified.alone k fresh
  obtain ⟨process, runtime, launched, user⟩ := setting.launches fits firstPid n traps
  refine ⟨run, k', process, runtime, classified, fresh', user, ?_⟩
  unfold one10
  rw [job_]
  dsimp only
  rw [if_pos pids]
  unfold callOf at launched ran
  rw [launched, ran]
  rfl

theorem one10_enters : ∃ process runtime k', one10 layout image hart firstPid n [] k = .ok (.entered process, k') ∧
    Launched layout job process runtime := by
  have quiet : ∀ t ∈ ([] : List Trap), t.Proper layout ⟨job.start, job.stop⟩ := by simp
  obtain ⟨run, k', process, runtime, classified, -, launched, one⟩ :=
    one10_classified setting job_ fits pids fresh quiet
  obtain ⟨silent, waits⟩ := answered_nil classified.answered
  have running : run.finished = none := Option.map_eq_none_iff.mp waits
  rw [running, silent] at one
  exact ⟨process, runtime, k', one, launched⟩

theorem one10_resumes (calm : Calm layout job traps) (proper : trap.Proper layout ⟨job.start, job.stop⟩)
    (returns : trap.Returns result) :
    ∃ frame k', one10 layout image hart firstPid n (traps ++ [trap]) k = .ok (.resumed frame, k') ∧
      Resumed trap.frame frame result := by
  obtain ⟨run, k', process, runtime, classified, -, -, one⟩ :=
    one10_classified setting job_ fits pids fresh fun t member => (calm.snoc proper returns t member).1
  obtain ⟨waits, frame, last, resumed⟩ :=
    answered_resumed (fun t member => (calm t member).2) returns classified.answered
  have running : run.finished = none := Option.map_eq_none_iff.mp waits
  rw [running, last] at one
  exact ⟨frame, k', one, resumed⟩

theorem one10_ends (calm : Calm layout job traps) (proper : trap.Proper layout ⟨job.start, job.stop⟩)
    (stops : ∀ result, ¬ trap.Returns result) (expected : ∀ outcome, trap.Ends outcome → job.expected outcome = true) :
    ∃ process k' outcome, one10 layout image hart firstPid n (traps ++ [trap]) k = .ok (.ended process, k') ∧
      k'.Fresh layout ∧ trap.Ends outcome ∧ process.id = firstPid + BitVec.ofNat 64 n ∧
      process.state = outcome.state := by
  have all : ∀ t ∈ traps ++ [trap], t.Proper layout ⟨job.start, job.stop⟩ := by
    intro t member
    rcases List.mem_append.mp member with early | late
    · exact (calm t early).1
    · cases List.mem_singleton.mp late
      exact proper
  obtain ⟨run, k', process, runtime, classified, fresh', -, one⟩ := one10_classified setting job_ fits pids fresh all
  obtain ⟨outcome, ends, ended⟩ := answered_ended (fun t member => (calm t member).2) stops classified.answered
  obtain ⟨f, finished, rfl⟩ := Option.map_eq_some_iff.mp ended
  obtain ⟨⟨created, pid, -, start⟩, running, transition, state, -⟩ := classified.lifecycle f finished
  rw [finished] at one
  dsimp only at one
  rw [if_pos (expected f.outcome ends)] at one
  have same : f.process.id = created.id :=
    (transition_id transition).trans (transition_id (mapError_ok.mp start))
  exact ⟨f.process, k', f.outcome, one, fresh', ends, same.trans pid, state⟩

end one

/-! ### Calls of user code -/

theorem applyReturn_ok {frame : TrapFrame} (room : frame.sepc.toNat + 4 ≤ usizeMax) (below : frame.sepc + 4 ≤ stop)
    (result : Int) : ∃ after, applyReturn frame result stop = .ok after := by
  unfold applyReturn
  rw [require_ok room, ok_bind]
  dsimp only
  rw [require_ok below, ok_bind]
  exact ⟨_, rfl⟩

/-- The instruction at `pc` with the address behind it is in the process's own
code or in the API. -/
def Inside (layout : Layout) (job : Job) (pc next : Word) : Prop :=
  (⟨job.start, job.stop⟩ : AddressRange).Contains pc ∧ next ≤ job.stop ∨
    layout.api.Contains pc ∧ next ≤ layout.userApiEnd

theorem inside_own {pc next : Word} (low : job.start ≤ pc) (before : pc < next) (below : next ≤ job.stop) :
    Inside layout job pc next := by
  refine .inl ⟨⟨low, ?_⟩, below⟩
  rw [BitVec.lt_def] at before ⊢
  rw [BitVec.le_def] at below
  exact Nat.lt_of_lt_of_le before below

theorem inside_api (setting : Setting layout image hart) {pc next : Word}
    (low : image.code.addr .user_api_putchar ≤ pc) (before : pc < next) (below : next ≤ image.user_api_end) :
    Inside layout job pc next := by
  rw [← setting.apiStart] at low
  rw [← setting.apiEnd] at below
  refine .inr ⟨⟨low, ?_⟩, below⟩
  change pc < layout.userApiEnd
  rw [BitVec.lt_def] at before ⊢
  rw [BitVec.le_def] at below
  exact Nat.lt_of_lt_of_le before below

theorem Job.Fits.of_entry {code : Code Label} (entry : code.Within job.start job.stop job.start (op :: ops) behind)
    (even : job.start &&& 1 = 0) : job.Fits := by
  obtain ⟨next, -, before, below, -⟩ := entry.fetch
  refine ⟨?_, even⟩
  rw [BitVec.lt_def] at before ⊢
  rw [BitVec.le_def] at below
  exact Nat.lt_of_lt_of_le before below

variable {goal : System Lesson10.Kernel → Prop} {s : System Lesson10.Kernel} {c : Core} {next : Word}

theorem room_behind (behind : next = c.1 + 4) (before : c.1 < next) : c.1.toNat + 4 < 2 ^ 64 := by
  subst behind
  bv_omega

theorem raised_proper (setting : Setting layout image hart) (member : job ∈ jobs image)
    (cause : exceptionCause code = 2 ∨ exceptionCause code = 8) (behind : exceptionCause code = 8 → next = c.1 + 4)
    (before : c.1 < next) (inside : Inside layout job c.1 next) (mode : sstatus &&& SSTATUS_SPP = 0) (stval : Word) :
    (raised layout (userOf c) sstatus code stval).Proper layout ⟨job.start, job.stop⟩ := by
  refine ⟨rfl, mode, cause, inside.imp And.left And.left, fun result returns => ?_⟩
  have behind := behind returns.1
  have room := room_behind behind before
  apply applyReturn_ok
  · exact Nat.le_sub_one_of_lt room
  · change c.1 + 4 ≤ layout.resumeEnd ⟨job.start, job.stop⟩ c.1
    rw [← behind]
    unfold Layout.resumeEnd
    rcases inside with ⟨own, below⟩ | ⟨api, below⟩
    · rw [if_neg (setting.apart job member c.1 own)]
      exact below
    · rw [if_pos api]
      exact below

/-- The byte that an environment call of this hart prints. -/
def put (h : Rv64User.Hart) : List (BitVec 8) :=
  if h.x a7 = Syscall.SYSCALL_PUTCHAR ∧ ¬ 0x7f < h.x a0 then [(h.x a0).setWidth 8] else []

/-- The byte that `putchar` prints for an argument. -/
def byteOf (arg : Word) : List (BitVec 8) := if ¬ 0x7f < arg then [arg.setWidth 8] else []

theorem put_putchar {h : Rv64User.Hart} (number : h.x a7 = 1) : put h = byteOf (h.x a0) := by
  unfold put byteOf
  rw [number]
  exact if_congr (and_iff_right rfl) rfl rfl

theorem put_silent {h : Rv64User.Hart} (number : h.x a7 ≠ 1) : put h = [] := if_neg fun both => number both.1

/-- The system when user code has printed more. -/
def System.prints (s : System κ) (bytes : List (BitVec 8)) : System κ := { s with console := s.console ++ bytes }

theorem System.prints_nil (s : System κ) : s.prints [] = s := by
  unfold System.prints
  rw [List.append_nil]

theorem System.prints_append (s : System κ) (first second : List (BitVec 8)) :
    (s.prints first).prints second = s.prints (first ++ second) := by
  unfold System.prints
  rw [List.append_assoc]

theorem printed_ecall (layout : Layout) (c : Core) (sstatus stval : Word) :
    printed (raised layout (userOf c) sstatus 8 stval).frame = put c.2 := by
  have ecall : (raised layout (userOf c) sstatus 8 stval).frame.scause = 8 := rfl
  unfold printed put
  simp only [ecall, true_and]
  rfl

theorem answered_core (c : Core) (result : Word) (behind : next = c.1 + 4) :
    (⟨((userOf c).answered result).x, ((userOf c).answered result).zero, c.1 + 4, c.2.mem⟩ : User Memory) =
      userOf (next, c.2.set a0 result) := by
  have registers : Function.update c.2.x a0 result = (c.2.set a0 result).x := by
    funext q
    by_cases here : q = a0
    · subst here
      simp
    · rw [Function.update_of_ne here, Hart.set_x, if_neg fun both => here both.1]
  subst behind
  unfold userOf
  simp only [Hart.set_mem, ← registers]
  rfl

section calls
variable (setting : Setting layout image hart) (job_ : (jobs image)[s.ended.length]? = some job) (fits : job.Fits)
  (pids : firstPid.toNat + s.ended.length < 2 ^ 64) (fresh : s.kernel.Fresh layout) (calm : Calm layout job traps)
include setting job_ fits pids fresh calm

/-- A call that returns. -/
theorem Setting.calls (result : Int) (here : image.code.fetch c.1 = some (.ecall, next)) (before : c.1 < next)
    (inside : Inside layout job c.1 next) (returns : Syscall.dispatch (c.2.x a7) (c.2.x a0) = .ret result)
    (after : ∀ traps, Calm layout job traps →
      Inevitably (lesson10 layout image elsewhere hart firstPid).Step goal
        ((s.prints (put c.2)).running traps (next, c.2.set a0 (BitVec.ofInt 64 result)))) :
    Inevitably (lesson10 layout image elsewhere hart firstPid).Step goal (s.running traps c) := by
  have behind := setting.linked.ecall c.1 next here
  have member : job ∈ jobs image := List.mem_of_getElem? job_
  refine Lesson.resumes rfl (machine_ecall elsewhere here) fun sstatus stval mode => ?_
  have ecall : exceptionCause 8 = 2 ∨ exceptionCause 8 = 8 := .inr rfl
  have proper := raised_proper setting member ecall (fun _ => behind) before inside mode stval
  have returns_ : (raised layout (userOf c) sstatus 8 stval).Returns result := ⟨rfl, returns⟩
  obtain ⟨frame, k, one, resumed⟩ := one10_resumes setting job_ fits pids fresh calm proper returns_
  refine ⟨frame, k, one, ?_⟩
  have loaded := (load_resumed resumed c.2.mem (room_behind behind before)).trans (answered_core c _ behind)
  have printed_ := printed_ecall layout c sstatus stval
  change Inevitably _ goal { s with
    console := s.console ++ printed (raised layout (userOf c) sstatus 8 stval).frame
    user := some (traps ++ [raised layout (userOf c) sstatus 8 stval], .load frame c.2.mem) }
  rw [loaded, printed_]
  exact after _ (calm.snoc proper returns_)

/-- A trap that ends the process as its job expects. -/
theorem Setting.ends {code : BitVec 63} (trap : machine image.code elsewhere (userOf c) = .trap code)
    (cause : exceptionCause code = 2 ∨ exceptionCause code = 8) (behind : exceptionCause code = 8 → next = c.1 + 4)
    (before : c.1 < next) (inside : Inside layout job c.1 next)
    (stops : ∀ sstatus stval result, ¬ (raised layout (userOf c) sstatus code stval).Returns result)
    (expected : ∀ sstatus stval outcome, (raised layout (userOf c) sstatus code stval).Ends outcome →
      job.expected outcome = true)
    (after : ∀ sstatus stval process k outcome, k.Fresh layout →
      (raised layout (userOf c) sstatus code stval).Ends outcome →
      process.id = firstPid + BitVec.ofNat 64 s.ended.length → process.state = outcome.state →
      Inevitably (lesson10 layout image elsewhere hart firstPid).Step goal
        ⟨k, s.ended ++ [process], s.console ++ printed (raised layout (userOf c) sstatus code stval).frame, none⟩) :
    Inevitably (lesson10 layout image elsewhere hart firstPid).Step goal (s.running traps c) := by
  refine Lesson.finishes rfl trap fun sstatus stval mode => ?_
  have proper := raised_proper setting (List.mem_of_getElem? job_) cause behind before inside mode stval
  obtain ⟨process, k, outcome, one, fresh', ends, pid, state⟩ :=
    one10_ends setting job_ fits pids fresh calm proper (stops sstatus stval) (expected sstatus stval)
  exact ⟨process, k, one, after sstatus stval process k outcome fresh' ends pid state⟩

/-- A call of `exit` with a code. -/
theorem Setting.exits (code : BitVec 8) (here : image.code.fetch c.1 = some (.ecall, next)) (before : c.1 < next)
    (inside : Inside layout job c.1 next) (number : c.2.x a7 = 2) (argument : c.2.x a0 = code.setWidth 64)
    (expected : job.expected (.exited code) = true)
    (after : ∀ process k, k.Fresh layout → process.id = firstPid + BitVec.ofNat 64 s.ended.length →
      process.state = .exited code.toNat →
      Inevitably (lesson10 layout image elsewhere hart firstPid).Step goal ⟨k, s.ended ++ [process], s.console, none⟩) :
    Inevitably (lesson10 layout image elsewhere hart firstPid).Step goal (s.running traps c) := by
  have dispatched : Syscall.dispatch (c.2.x a7) (c.2.x a0) = .exit code := dispatch_exit.mpr ⟨number, argument⟩
  have outcome_ (sstatus stval : Word) (outcome : RunOutcome)
      (ends : (raised layout (userOf c) sstatus 8 stval).Ends outcome) : outcome = .exited code :=
    (ends.exited code).mpr ⟨rfl, number, argument⟩
  refine setting.ends job_ fits pids fresh calm (machine_ecall elsewhere here) (.inr rfl)
    (fun _ => setting.linked.ecall c.1 next here) before inside ?_ ?_ ?_
  · intro sstatus stval result returns
    cases dispatched.symm.trans returns.2
  · intro sstatus stval outcome ends
    rw [outcome_ sstatus stval outcome ends]
    exact expected
  · intro sstatus stval process k outcome fresh' ends pid state
    have other : c.2.x a7 ≠ 1 := number.trans_ne (by decide)
    rw [printed_ecall, put_silent other, List.append_nil]
    rw [outcome_ sstatus stval outcome ends] at state
    exact after process k fresh' pid state

end calls

section api
variable (setting : Setting layout image hart) (job_ : (jobs image)[s.ended.length]? = some job) (fits : job.Fits)
  (pids : firstPid.toNat + s.ended.length < 2 ^ 64) (fresh : s.kernel.Fresh layout) (calm : Calm layout job traps)
include setting job_ fits pids fresh calm

/-- `call user_api_putchar`: up to the instruction behind it, one byte later. -/
theorem Setting.api_call (argument : Word) (result : Int) {h : Rv64User.Hart}
    (place : image.code.Within job.start job.stop pc (.call .user_api_putchar :: rest) blockEnd)
    (given : h.x a0 = argument) (returns : Syscall.dispatch 1 argument = .ret result)
    (after : ∀ traps next, Calm layout job traps → image.code.Within job.start job.stop next rest blockEnd →
      Inevitably (lesson10 layout image elsewhere hart firstPid).Step goal ((s.prints (byteOf argument)).running traps
        (next, ((h.set ra next).set a7 1).set a0 (BitVec.ofInt 64 result)))) :
    Inevitably (lesson10 layout image elsewhere hart firstPid).Step goal (s.running traps (pc, h)) := by
  have number : image.code.Within (image.code.addr .user_api_putchar) image.user_api_end
      (image.code.addr .user_api_putchar) [.li a7 1] (image.code.addr .user_api_putchar_ecall) :=
    Code.Holds.block [] _ setting.linked.user_api
  have ecall : image.code.Within (image.code.addr .user_api_putchar) image.user_api_end
      (image.code.addr .user_api_putchar_ecall) [.ecall, .ret] (image.code.addr .user_api_exit) :=
    Code.Holds.block [_] _ setting.linked.user_api
  obtain ⟨behind, call, -, -, place⟩ := place.fetch
  obtain ⟨returned, here, before, below, back⟩ := ecall.fetch
  obtain ⟨_, ret, -, -, -⟩ := back.fetch
  refine Lesson.computes (image.code.goesOn call rfl (number.block _ rfl (.now ?_)))
  let g := (h.set ra behind).set a7 1
  have same : g.x a0 = argument := by simpa [g] using given
  have asked : g.x a7 = 1 := by simp [g]
  refine setting.calls job_ fits pids fresh calm result here before (inside_api setting ecall.low before below) ?_
    fun traps calm => Lesson.computes (image.code.goesOn ret rfl (.now ?_))
  · exact (congrArg₂ Syscall.dispatch asked same).trans returns
  · have home : (g.set a0 (BitVec.ofInt 64 result)).x ra &&& ~~~1 = behind := by
      have linked := setting.linked.even _ _ _ call
      simpa [g] using linked
    change Inevitably _ goal ((s.prints (put g)).running traps
      ((g.set a0 (BitVec.ofInt 64 result)).x ra &&& ~~~1, g.set a0 (BitVec.ofInt 64 result)))
    rw [put_putchar asked, same, home]
    exact after traps behind calm place

/-- Characters that `putchar` takes. -/
def Printable (c : Int) : Prop :=
  Syscall.dispatch 1 (BitVec.ofInt 64 c) = .ret 0 ∧ byteOf (BitVec.ofInt 64 c) = [BitVec.ofInt 8 c]

instance (c : Int) : Decidable (Printable c) := inferInstanceAs (Decidable (_ ∧ _))

omit calm in
omit job_ pids fresh calm in
/-- Characters printed through the API, by induction on how many there are. -/
theorem Setting.api_prints {characters : List Int} (printable : ∀ c ∈ characters, Printable c)
    (job_ : (jobs image)[s.ended.length]? = some job) (pids : firstPid.toNat + s.ended.length < 2 ^ 64)
    (fresh : s.kernel.Fresh layout) (calm : Calm layout job traps) {h : Rv64User.Hart}
    (place : image.code.Within job.start job.stop pc (api_putchars characters ++ rest) blockEnd)
    (after : ∀ traps next (g : Rv64User.Hart), Calm layout job traps →
      image.code.Within job.start job.stop next rest blockEnd → g.mem = h.mem → g.x sp = h.x sp →
      Inevitably (lesson10 layout image elsewhere hart firstPid).Step goal
        ((s.prints (characters.map (BitVec.ofInt 8))).running traps (next, g))) :
    Inevitably (lesson10 layout image elsewhere hart firstPid).Step goal (s.running traps (pc, h)) := by
  induction characters generalizing s traps pc h with
  | nil =>
    rw [List.map_nil, System.prints_nil] at after
    exact after traps pc h calm place rfl rfl
  | cons c characters ih =>
    obtain ⟨now, later⟩ := List.forall_mem_cons.mp printable
    obtain ⟨zero, byte⟩ := now
    obtain ⟨_, letter, -, -, place⟩ := Code.Within.fetch place
    refine Lesson.computes (image.code.goesOn letter rfl (.now ?_))
    have given : (h.set a0 (BitVec.ofInt 64 c)).x a0 = BitVec.ofInt 64 c := by simp
    refine setting.api_call job_ fits pids fresh calm _ 0 place given zero fun traps next calm place => ?_
    rw [byte]
    refine ih (s := s.prints [BitVec.ofInt 8 c]) later job_ pids fresh calm place fun traps next g calm place mem pointer => ?_
    rw [System.prints_append, List.singleton_append]
    refine after traps next g calm place (mem.trans ?_) (pointer.trans ?_)
    · simp [Op.run, Instr.run]
    · simp [Op.run, Instr.run]

end api

/-- The blocks of `user10_normal` that a good run is in. -/
theorem normal_main (linked : image.Linked) : image.code.Within (afterFault image).start (afterFault image).stop
    (image.code.addr .user10_normal_main)
    ([.addi sp sp (-16), .sd ra 8 sp, .li a7 999, .li a0 0] ++ .ecall :: .li t0 (-1) :: .bne a0 t0 .user10_failed ::
      .li a0 256 :: .call .user_api_putchar :: .li t0 (-2) :: .bne a0 t0 .user10_failed ::
      (api_putchars OUTPUT ++ [.li a0 0, .ld ra 8 sp, .addi sp sp 16, .ret]))
    (image.code.addr .user10_failed) := Code.Holds.block [_, _] _ linked.user10_normal

section programs
variable (setting : Setting layout image hart) (job_ : (jobs image)[s.ended.length]? = some job) (fits : job.Fits)
  (pids : firstPid.toNat + s.ended.length < 2 ^ 64) (fresh : s.kernel.Fresh layout)
include setting job_ fits pids fresh

/-- The manager starts the process of its next job. -/
theorem Setting.starts (managing : s.user = none)
    (after : ∀ h : Rv64User.Hart,
      Inevitably (lesson10 layout image elsewhere hart firstPid).Step goal (s.running [] (job.start, h))) :
    Inevitably (lesson10 layout image elsewhere hart firstPid).Step goal s := by
  have more : s.ended.length < (jobs image).length := (List.getElem?_eq_some_iff.mp job_).1
  obtain ⟨process, runtime, k, one, launched⟩ := one10_enters setting job_ fits pids fresh
  refine Lesson.enters managing more one launched.user fun stack => ?_
  have place : started runtime stack = userOf (job.start, ⟨_, (started runtime stack).zero, stack⟩) := by
    rw [← launched.sepc]
    rfl
  rw [place]
  exact after _

omit job_ fits pids fresh in
/-- The program of the stress runs. -/
theorem Setting.runs_stress (job_ : (jobs image)[s.ended.length]? = some (stress image))
    (pids : firstPid.toNat + s.ended.length < 2 ^ 64) (fresh : s.kernel.Fresh layout) (managing : s.user = none)
    (after : ∀ process k, k.Fresh layout → process.id = firstPid + BitVec.ofNat 64 s.ended.length →
      process.state = .exited 0 →
      Inevitably (lesson10 layout image elsewhere hart firstPid).Step goal ⟨k, s.ended ++ [process], s.console, none⟩) :
    Inevitably (lesson10 layout image elsewhere hart firstPid).Step goal s := by
  have entry : image.code.Within (stress image).start (stress image).stop (image.code.addr .user09_stress_entry)
      [.li a7 2, .li a0 0] (image.code.addr .user09_stress_ecall) := Code.Holds.block [] _ setting.linked.user09_stress
  have ecall : image.code.Within (stress image).start (stress image).stop (image.code.addr .user09_stress_ecall)
      [.ecall] (image.code.addr .user09_stress_after_exit) := Code.Holds.block [_] _ setting.linked.user09_stress
  obtain ⟨next, here, before, below, -⟩ := ecall.fetch
  have fits : (stress image).Fits := .of_entry entry (setting.linked.aligned _ (by simp))
  refine setting.starts job_ fits pids fresh managing fun h => Lesson.computes ?_
  refine entry.block _ rfl (.now ?_)
  refine setting.exits job_ fits pids fresh .nil 0 here before (inside_own ecall.low before below) ?_ ?_ rfl
    after
  · simp [Code.line, Op.run, Instr.run]
  · simp [Code.line, Op.run, Instr.run]

omit job_ fits pids fresh in
/-- The program that tries to exit with 256 first. -/
theorem Setting.runs_exit7 (job_ : (jobs image)[s.ended.length]? = some (exit7 image))
    (pids : firstPid.toNat + s.ended.length < 2 ^ 64) (fresh : s.kernel.Fresh layout) (managing : s.user = none)
    (after : ∀ process k, k.Fresh layout → process.id = firstPid + BitVec.ofNat 64 s.ended.length →
      process.state = .exited 7 →
      Inevitably (lesson10 layout image elsewhere hart firstPid).Step goal ⟨k, s.ended ++ [process], s.console, none⟩) :
    Inevitably (lesson10 layout image elsewhere hart firstPid).Step goal s := by
  have entry : image.code.Within (exit7 image).start (exit7 image).stop (image.code.addr .user09_entry)
      [.li a7 2, .li a0 256] (image.code.addr .user09_ecall_invalid_exit) :=
    Code.Holds.block [] _ setting.linked.user09
  have invalid : image.code.Within (exit7 image).start (exit7 image).stop (image.code.addr .user09_ecall_invalid_exit)
      [.ecall, .li t0 (-2), .bne a0 t0 .user09_fail, .li a7 2, .li a0 7] (image.code.addr .user09_ecall_exit7) :=
    Code.Holds.block [_] _ setting.linked.user09
  have last : image.code.Within (exit7 image).start (exit7 image).stop (image.code.addr .user09_ecall_exit7)
      ([.ecall] ++ putchars [66, 65, 68, 95, 65, 70, 84, 69, 82, 95, 69, 88, 73, 84, 10])
      (image.code.addr .user09_fail) :=
    Code.Holds.block [_, _] _ setting.linked.user09
  have fits : (exit7 image).Fits := .of_entry entry (setting.linked.aligned _ (by simp))
  obtain ⟨behind, first, before, below, rest⟩ := invalid.fetch
  obtain ⟨behind', second, before', below', -⟩ := last.fetch
  refine setting.starts job_ fits pids fresh managing fun h => Lesson.computes ?_
  refine entry.block _ rfl (.now ?_)
  -- exit(256) comes back with -2
  refine setting.calls job_ fits pids fresh .nil (-2) first before (inside_own invalid.low before below) ?_
    fun traps calm => Lesson.computes ?_
  · simp [Code.line, Op.run, Instr.run]
    rfl
  refine Code.Within.line [.li t0 (-2)] rest rfl fun compare rest => ?_
  obtain ⟨_, branch, -, -, rest⟩ := rest.fetch
  refine Code.falls branch rfl (by simp [Code.line, Op.run, Instr.run, Instr.target]) (rest.block _ rfl (.now ?_))
  rw [put_silent (by simp [Code.line, Op.run, Instr.run]), System.prints_nil]
  refine setting.exits job_ fits pids fresh calm 7 second before' (inside_own last.low before' below') ?_ ?_ rfl after
  · simp [Code.line, Op.run, Instr.run]
  · simp [Code.line, Op.run, Instr.run]

omit job_ fits pids fresh in
/-- The program that is one illegal instruction. -/
theorem Setting.runs_illegal (job_ : (jobs image)[s.ended.length]? = some (illegal image))
    (pids : firstPid.toNat + s.ended.length < 2 ^ 64) (fresh : s.kernel.Fresh layout) (managing : s.user = none)
    (after : ∀ process k stval, k.Fresh layout → process.id = firstPid + BitVec.ofNat 64 s.ended.length →
      process.state = .faulted ⟨2, image.code.addr .user10_fault_instruction, stval⟩ →
      Inevitably (lesson10 layout image elsewhere hart firstPid).Step goal ⟨k, s.ended ++ [process], s.console, none⟩) :
    Inevitably (lesson10 layout image elsewhere hart firstPid).Step goal s := by
  have entry : image.code.Within (illegal image).start (illegal image).stop
      (image.code.addr .user10_fault_instruction) [.illegal] (image.code.addr .user10_fault_after) :=
    Code.Holds.block [] _ setting.linked.user10_fault
  have fits : (illegal image).Fits := .of_entry entry (setting.linked.aligned _ (by simp))
  obtain ⟨next, here, before, below, -⟩ := entry.fetch
  refine setting.starts job_ fits pids fresh managing fun h => ?_
  have noCall : exceptionCause 2 ≠ 8 := by decide
  have faults (sstatus stval : Word) (outcome : RunOutcome)
      (ends : (raised layout (userOf ((illegal image).start, h)) sstatus 2 stval).Ends outcome) :
      outcome = .faulted 2 (image.code.addr .user10_fault_instruction) stval := by
    apply ends.faulted
    intro code exited
    have ecall := ((ends.exited code).mp exited).1
    exact absurd ecall noCall
  refine setting.ends job_ fits pids fresh .nil (machine_illegal elsewhere here) (.inl rfl) ?_ before
    (inside_own entry.low before below) ?_ ?_ ?_
  · intro ecall
    exact absurd ecall noCall
  · intro sstatus stval result returns
    exact absurd returns.1 noCall
  · intro sstatus stval outcome ends
    rw [faults sstatus stval outcome ends]
    simp [illegal]
  · intro sstatus stval process k outcome fresh' ends pid state
    have nothing : printed (raised layout (userOf ((illegal image).start, h)) sstatus 2 stval).frame = [] :=
      if_neg fun both => absurd both.1 noCall
    rw [nothing, List.append_nil]
    rw [faults sstatus stval outcome ends] at state
    exact after process k stval fresh' pid state

omit job_ fits pids fresh in
/-- `user10_normal_main` up to its output: it has pushed `ra`, and both of its
checks pass. -/
theorem Setting.main_checks (job_ : (jobs image)[s.ended.length]? = some (afterFault image))
    (fits : (afterFault image).Fits) (pids : firstPid.toNat + s.ended.length < 2 ^ 64) (fresh : s.kernel.Fresh layout)
    {h : Rv64User.Hart}
    (after : ∀ traps next (g : Rv64User.Hart), Calm layout (afterFault image) traps →
      image.code.Within (afterFault image).start (afterFault image).stop next
        (api_putchars OUTPUT ++ [.li a0 0, .ld ra 8 sp, .addi sp sp 16, .ret]) (image.code.addr .user10_failed) →
      load g.mem (g.x sp + 8#64) = h.x ra →
      Inevitably (lesson10 layout image elsewhere hart firstPid).Step goal (s.running traps (next, g))) :
    Inevitably (lesson10 layout image elsewhere hart firstPid).Step goal
      (s.running [] (image.code.addr .user10_normal_main, h)) := by
  have main := normal_main setting.linked
  refine Lesson.computes (main.line _ rfl fun _ place => .now ?_)
  obtain ⟨_, unknown, before, below, place'⟩ := place.fetch
  refine setting.calls job_ fits pids fresh .nil (-1) unknown before (inside_own place.low before below) ?_
    fun traps calm => Lesson.computes ?_
  · simp [Code.line, Op.run, Instr.run]
    rfl
  rw [put_silent (by simp [Code.line, Op.run, Instr.run]), System.prints_nil]
  refine Code.Within.line [.li t0 (-1)] place' rfl fun _ place => ?_
  obtain ⟨_, branch, -, -, place⟩ := place.fetch
  refine Code.falls branch rfl (by simp [Code.line, Op.run, Instr.run, Instr.target]) ?_
  refine Code.Within.line [.li a0 256] place rfl fun _ place => .now ?_
  have silent : byteOf 256 = [] := rfl
  refine setting.api_call job_ fits pids fresh calm 256 (-2) place ?_ rfl
    fun traps next calm place => Lesson.computes ?_
  · simp [Code.line, Op.run, Instr.run]
  rw [silent, System.prints_nil]
  refine Code.Within.line [.li t0 (-2)] place rfl fun _ place => ?_
  obtain ⟨_, branch, -, -, place⟩ := place.fetch
  refine Code.falls branch rfl (by simp [Code.line, Op.run, Instr.run, Instr.target]) (.now (after _ _ _ calm place ?_))
  simp [Code.line, Op.run, Instr.run, load_store_same]

omit job_ fits pids fresh in
/-- The program that runs after the fault: it prints its output and exits with 0. -/
theorem Setting.runs_afterFault (job_ : (jobs image)[s.ended.length]? = some (afterFault image))
    (pids : firstPid.toNat + s.ended.length < 2 ^ 64) (fresh : s.kernel.Fresh layout) (managing : s.user = none)
    (after : ∀ process k, k.Fresh layout → process.id = firstPid + BitVec.ofNat 64 s.ended.length →
      process.state = .exited 0 → Inevitably (lesson10 layout image elsewhere hart firstPid).Step goal
        ⟨k, s.ended ++ [process], s.console ++ OUTPUT.map (BitVec.ofInt 8), none⟩) :
    Inevitably (lesson10 layout image elsewhere hart firstPid).Step goal s := by
  have entry : image.code.Within (afterFault image).start (afterFault image).stop
      (image.code.addr .user10_normal_entry)
      (.call .user10_normal_main :: .call .user_api_exit ::
        api_putchars [66, 65, 68, 95, 69, 88, 73, 84, 95, 82, 69, 84, 85, 82, 78, 10])
      (image.code.addr .user10_normal_1) := Code.Holds.block [] _ setting.linked.user10_normal
  have number : image.code.Within (image.code.addr .user_api_putchar) image.user_api_end
      (image.code.addr .user_api_exit) [.li a7 2] (image.code.addr .user_api_exit_ecall) :=
    Code.Holds.block [_, _] _ setting.linked.user_api
  have ecall : image.code.Within (image.code.addr .user_api_putchar) image.user_api_end
      (image.code.addr .user_api_exit_ecall) [.ecall, .ret] image.user_api_end :=
    Code.Holds.block [_, _, _] _ setting.linked.user_api
  have fits : (afterFault image).Fits := .of_entry entry (setting.linked.aligned _ (by simp))
  obtain ⟨behind, main, -, -, entry⟩ := entry.fetch
  obtain ⟨_, exit, -, -, -⟩ := entry.fetch
  obtain ⟨_, here, before, below, -⟩ := ecall.fetch
  refine setting.starts job_ fits pids fresh managing fun h => Lesson.computes (image.code.goesOn main rfl (.now ?_))
  refine setting.main_checks job_ fits pids fresh fun traps next g calm place pushed => ?_
  refine setting.api_prints fits (by decide) job_ pids fresh calm place fun traps next f calm place mem pointer => ?_
  refine Lesson.computes (Code.Within.line [.li a0 0, .ld ra 8 sp, .addi sp sp 16] place rfl fun _ place => ?_)
  obtain ⟨_, ret, -, -, -⟩ := place.fetch
  have home : (image.code.line [.li a0 0, .ld ra 8 sp, .addi sp sp 16] f).x ra &&& ~~~1 = behind := by
    have popped : load f.mem (f.x sp + 8#64) = behind := by
      rw [mem, pointer, pushed]
      simp [Op.run]
    have aligned := setting.linked.even _ _ _ main
    rw [← popped] at aligned
    simpa [Code.line, Op.run, Instr.run, popped] using aligned
  refine image.code.goesOn ret rfl ?_
  change Inevitably _ _ ((image.code.line [.li a0 0, .ld ra 8 sp, .addi sp sp 16] f).x ra &&& ~~~1,
    image.code.line [.li a0 0, .ld ra 8 sp, .addi sp sp 16] f)
  rw [home]
  refine image.code.goesOn exit rfl (number.block _ rfl (.now ?_))
  refine setting.exits (s := s.prints (OUTPUT.map (BitVec.ofInt 8))) job_ fits pids fresh calm 0 here before
    (inside_api setting ecall.low before below) ?_ ?_ rfl after
  · simp [Code.line, Op.run, Instr.run]
  · simp [Code.line, Op.run, Instr.run]

end programs

/-! ### The whole of `run` -/

/-- The PIDs of these processes count up from the first, and they ended in these states. -/
structure Ended (firstPid : BitVec 64) (states : List ProcessState) (ended : List Process) : Prop where
  ids : ended.map (·.id) = (List.range ended.length).map fun n => firstPid + BitVec.ofNat 64 n
  outcomes : ended.map (·.state) = states

theorem Ended.nil : Ended firstPid [] [] := ⟨rfl, rfl⟩

theorem Ended.snoc {process : Process} (before : Ended firstPid states ended)
    (pid : process.id = firstPid + BitVec.ofNat 64 ended.length) (state : process.state = last) :
    Ended firstPid (states ++ [last]) (ended ++ [process]) := by
  refine ⟨?_, ?_⟩
  · rw [List.map_append, before.ids, List.length_append, List.length_singleton, List.range_succ, List.map_append,
      List.map_singleton, List.map_singleton, pid]
  · rw [List.map_append, before.outcomes, List.map_singleton, state]

/-- The manager is back between two runs, with these processes behind it. -/
structure Managed (Fresh : κ → Prop) (firstPid : BitVec 64) (output : List (BitVec 8)) (states : List ProcessState)
    (s : System κ) : Prop where
  managing : s.user = none
  fresh : Fresh s.kernel
  console : s.console = output
  ended : Ended firstPid states s.ended

theorem Managed.finished {κ : Type} {Fresh : κ → Prop} {s : System κ} {k : κ} {process : Process}
    (before : Managed Fresh firstPid output states s) (fresh : Fresh k)
    (pid : process.id = firstPid + BitVec.ofNat 64 s.ended.length) (state : process.state = last)
    (bytes : List (BitVec 8)) :
    Managed Fresh firstPid (output ++ bytes) (states ++ [last])
      ⟨k, s.ended ++ [process], s.console ++ bytes, none⟩ :=
  ⟨rfl, fresh, by rw [before.console], before.ended.snoc pid state⟩

/-- The stress runs that are left, by induction on how many these are. -/
theorem Setting.runs_stresses (setting : Setting layout image hart) (pids : firstPid.toNat + 102 < 2 ^ 64)
    (left : Nat) (at_ : s.ended.length + left = 103) (past : 3 ≤ s.ended.length)
    (before : Managed (Lesson10.Kernel.Fresh layout) firstPid output states s) :
    Inevitably (lesson10 layout image elsewhere hart firstPid).Step
      (Managed (Lesson10.Kernel.Fresh layout) firstPid output (states ++ List.replicate left (.exited 0))) s := by
  induction left generalizing s states with
  | zero =>
    rw [List.replicate_zero, List.append_nil]
    exact .now before
  | succ left ih =>
    have job_ : (jobs image)[s.ended.length]? = some (stress image) := by
      unfold jobs
      rw [List.getElem?_append_right past, List.getElem?_replicate]
      exact if_pos (show s.ended.length - 3 < 100 by omega)
    refine setting.runs_stress job_ (by omega) before.fresh before.managing fun process k fresh pid state => ?_
    have after := before.finished fresh pid state []
    rw [List.append_nil] at after
    rw [List.replicate_succ, ← List.singleton_append, ← List.append_assoc]
    refine ih ?_ ?_ ?_
    · simp only [List.length_append, List.length_singleton]
      omega
    · simp only [List.length_append, List.length_singleton]
      omega
    · rwa [List.append_nil] at after

/-- The programs at consecutive addresses. -/
def lessonListing : List Block :=
  user08 ++ (user09 ++ (user09_stress ++ (user10_fault ++ (user10_normal ++ user_api))))

def lessonCode : Code Label := assemble 0x80004000 lessonListing fun _ => 0

def lessonImage : Image where
  code := lessonCode
  user08_end := lessonCode.addr .user09_entry
  user09_end := lessonCode.addr .user09_stress_entry
  user09_stress_end := lessonCode.addr .user10_fault_instruction
  user10_fault_end := lessonCode.addr .user10_normal_entry
  user10_normal_end := lessonCode.addr .user_api_putchar
  user_api_end := nth 0x80004000 200

theorem lessonImage_linked : lessonImage.Linked := by
  have distinct : (lessonListing.map Prod.fst).Nodup := by decide +kernel
  have whole : lessonCode.Holds lessonListing (nth 0x80004000 200) :=
    assemble_holds 0x80004000 lessonListing (fun _ => 0) distinct (by decide +kernel)
  obtain ⟨first, whole⟩ := (Code.holds_append user08 _).mp whole
  obtain ⟨second, whole⟩ := (Code.holds_append user09 _).mp whole
  obtain ⟨third, whole⟩ := (Code.holds_append user09_stress _).mp whole
  obtain ⟨fourth, whole⟩ := (Code.holds_append user10_fault _).mp whole
  obtain ⟨fifth, last⟩ := (Code.holds_append user10_normal _).mp whole
  refine ⟨first, second, third, fourth, fifth, last, ?_, ?_, ?_⟩
  · intro pc next here
    exact (assemble_behind here).1
  · intro pc op next here
    obtain ⟨rfl, aligned⟩ := assemble_behind here
    have even : (pc + 4).toNat % 2 = 0 := by bv_omega
    exact even_cleared even
  · decide +kernel

/-- The layout of the lessons with the API where the image has it. -/
def apiLayout : Layout := { lessonLayout with userApiStart := 0x80004308, userApiEnd := 0x80004320 }

theorem apiLayout_sound : apiLayout.Sound where
  userSize := by decide
  trapSize := by decide
  boot := by decide
  api := by decide
  userAligned := by decide
  trapAligned := by decide
  apart := by decide
  userBoot := by decide
  trapBoot := by decide

theorem lessonImage_setting : Setting apiLayout lessonImage ⟨0, 0x122, 0x8001bf00⟩ where
  sound := apiLayout_sound
  linked := lessonImage_linked
  apiStart := by decide +kernel
  apiEnd := by decide +kernel
  apart := by
    have order : ∀ job ∈ jobs lessonImage, job.stop ≤ 0x80004308 := by decide +kernel
    intro job member pc own api
    have before : pc < job.stop := own.2
    have behind : (0x80004308 : Word) ≤ pc := api.1
    have below := order job member
    bv_omega
  interrupts := rfl
  manager := by
    change ¬ (lessonLayout.userStack.Contains 0x8001bf00 ∨ lessonLayout.trapStack.Contains 0x8001bf00)
    decide

end Neonos.LessonRuns
