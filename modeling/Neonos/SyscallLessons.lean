import Neonos.ResumePc
import Neonos.UserBatch

/-! Lessons 08 and 09 with their real programs: the one prints its two letters
and stays where it is, the other comes to the end of its 101 processes. -/
namespace Neonos.LessonRuns
open Lesson10 UserPrograms ByteMemory Rv64Linked Rv64User Rv64.Reg
open Lesson09 (validateUserTrap frameEnd INTERRUPT_BIT require_holds handleLesson08 handleLesson09)
open Scheduler (User Machine exceptionCause)

variable {layout : Layout} {image : Image} {elsewhere : Machine Memory} {hart : Lesson10.Hart} {pid firstPid : BitVec 64}
  {job : Job} {traps : List Trap} {u : User Memory} {start stop sstatus : Word}

/-! ### `validate_user_trap` -/

theorem frameAddress_toNat (sound : layout.Sound) :
    layout.frameAddress.toNat = layout.userTrapStackEnd.toNat - TRAP_FRAME_SIZE := by
  have size := sound.trapSize
  apply BitVec.toNat_sub_of_le
  rw [BitVec.le_def]
  change 288 ≤ layout.userTrapStackEnd.toNat
  omega

theorem frameEnd_top (sound : layout.Sound) : frameEnd layout.frameAddress = layout.userTrapStackEnd := by
  have size := sound.trapSize
  have high := layout.userTrapStackEnd.isLt
  have low := frameAddress_toNat sound
  have fits : layout.frameAddress.toNat + TRAP_FRAME_SIZE ≤ usizeMax := by
    unfold TRAP_FRAME_SIZE usizeMax at *
    omega
  unfold frameEnd
  rw [if_pos fits]
  exact BitVec.sub_add_cancel _ _

/-- The frame lies on the trap stack. -/
theorem frame_on_stack (sound : layout.Sound) :
    layout.trapStack.start ≤ layout.frameAddress ∧ frameEnd layout.frameAddress ≤ layout.trapStack.stop := by
  have size := sound.trapSize
  have low := frameAddress_toNat sound
  rw [frameEnd_top sound, BitVec.le_def, low]
  refine ⟨?_, BitVec.le_refl _⟩
  change layout.userTrapStackStart.toNat ≤ layout.userTrapStackEnd.toNat - 288
  omega

/-- The stack pointer that a process starts with passes the check. -/
theorem user_sp (sound : layout.Sound) :
    layout.userStack.Contains (layout.userStackEnd - 16) ∧ (layout.userStackEnd - 16) &&& 0xf = 0 := by
  obtain ⟨pointer, found⟩ := sound.initialUserSp
  obtain rfl := initialUserSp_value found
  unfold Layout.initialUserSp at found
  obtain ⟨_, -, found⟩ := bind_ok.mp found
  obtain ⟨_, passed, found⟩ := bind_ok.mp found
  cases found
  obtain ⟨aligned, inside⟩ := require_holds passed
  exact ⟨inside, aligned⟩

/-- An `ecall` of a process that has left its stack pointer alone. -/
theorem validates (sound : layout.Sound) (inside : (⟨start, stop⟩ : AddressRange).Contains u.pc)
    (pointer : u.x sp = layout.userStackEnd - 16) (mode : sstatus &&& SSTATUS_SPP = 0) (stval : Word) :
    validateUserTrap layout layout.trapEntry layout.frameAddress (u.save sstatus (exceptionCause 8) stval) start stop =
      .ok layout.frameAddress := by
  have stacked := frame_on_stack sound
  have userSp : layout.userStack.Contains (u.x sp) ∧ u.x sp &&& 0xf = 0 := by
    rw [pointer]
    exact user_sp sound
  have spp : (sstatus &&& SSTATUS_SPP) >>> 8 = 0 := by
    rw [mode]
    rfl
  have exception : exceptionCause 8 &&& INTERRUPT_BIT = 0 ∧ exceptionCause 8 &&& ~~~INTERRUPT_BIT = 8 := by decide
  have sepc : start ≤ u.pc ∧ u.pc < stop := inside
  have two : (2 : Fin 32) = sp := rfl
  unfold validateUserTrap
  rw [sound.stackRanges]
  change (if _ then _ else _) = _
  refine if_neg ?_
  simp only [User.save, spp, exception, sepc, stacked, userSp, two]
  simp

/-! ### A process of these lessons -/

/-- `prepare_process` as both lessons call it. -/
theorem Ground.prepares (ground : Ground layout image hart) (fits : job.Fits) (pid : BitVec 64) :
    Program.fromLinked job.name job.start job.start job.stop = .ok ⟨job.name, job.start, job.start, job.stop⟩ ∧
    ∃ process runtime, layout.prepareProcess hart pid ⟨job.name, job.start, job.start, job.stop⟩
        layout.userStack layout.trapStack = .ok process ∧
      Launched layout job process runtime ∧ process.id = pid ∧ process.state = .running := by
  let call : Lesson10.Call := ⟨pid, job.name, job.start, job.stop, hart, []⟩
  have proper : call.Proper layout := ⟨fits.range, fits.even, ground.interrupts, ground.manager, by simp [call]⟩
  obtain ⟨created, entered, -, prepared, pid_, -, started, running, -⟩ := 
    ground.sound.prepares proper ⟨job.name, job.start, job.start, job.stop⟩ rfl
  obtain ⟨runtime, user, pointer, sepc⟩ := prepared_runtime prepared
  have inside : job.start ≤ job.start ∧ job.start < job.stop := ⟨BitVec.le_refl _, fits.range⟩
  refine ⟨?_, entered, runtime, prepared, ⟨user, pointer, sepc⟩, ?_, running⟩
  · unfold Program.fromLinked
    rw [require_ok fits.range, ok_bind, require_ok inside, ok_bind]
  · exact (transition_id (mapError_ok.mp started)).trans pid_

/-- Where a launched process starts. -/
theorem launched_started (launched : Launched layout job process runtime) (stack : Memory) :
    ∃ h : Rv64User.Hart, started runtime stack = userOf (job.start, h) ∧
      h.x sp = layout.userStackEnd - 16 := by
  refine ⟨⟨_, (started runtime stack).zero, stack⟩, ?_, ?_⟩
  · rw [← launched.sepc]
    rfl
  · rw [← launched.sp]
    have value : Function.update (fun _ : Fin 32 => (0 : Word)) 2 (runtime.context.x 2) 2 = runtime.context.x 2 :=
      Function.update_self ..
    exact value

theorem contains_own {pc next : Word} (low : start ≤ pc) (before : pc < next) (below : next ≤ stop) :
    (⟨start, stop⟩ : AddressRange).Contains pc := by
  refine ⟨low, ?_⟩
  rw [BitVec.lt_def] at before ⊢
  rw [BitVec.le_def] at below
  exact Nat.lt_of_lt_of_le before below

/-! ### Lesson 08 -/

def job08 (image : Image) : Job :=
  ⟨"user-syscalls", image.code.addr .user08_entry, image.user08_end, fun _ => true⟩

section lesson08
variable {goal : System Unit → Prop} {s : System Unit} {c : Core} {next : Word}

/-- Traps that the handler has all answered. -/
def Answered08 (layout : Layout) (image : Image) (traps : List Trap) : Prop :=
  ∃ last, answered08 layout (addresses08 image) traps = .ok last

theorem answered08_snoc (answered : answered08 layout user traps = .ok last)
    (handled : handleLesson08 layout user layout.trapEntry trap.address trap.frame = .ok frame) :
    answered08 layout user (traps ++ [trap]) = .ok (some frame) := by
  induction traps generalizing last with
  | nil =>
    simp only [List.nil_append, answered08]
    rw [handled]
    rfl
  | cons first traps ih =>
    unfold answered08 at answered
    obtain ⟨before, first_, answered⟩ := bind_ok.mp answered
    obtain ⟨rest, others, -⟩ := bind_ok.mp answered
    have more : traps ++ [trap] ≠ [] := by simp
    rw [List.cons_append]
    unfold answered08
    rw [first_]
    change (do
      let last ← answered08 layout user (traps ++ [trap])
      Except.ok (if traps ++ [trap] = [] then some before else last)) = _
    rw [ih others]
    change Except.ok (if traps ++ [trap] = [] then some before else some frame) = _
    rw [if_neg more]

theorem Ground.answers08 (ground : Ground layout image hart) (fits : (job08 image).Fits) (pid : BitVec 64) :
    ∃ process runtime, Launched layout (job08 image) process runtime ∧ ∀ n traps last,
      answered08 layout (addresses08 image) traps = .ok last → one08 layout image hart pid n traps () =
        match last with
        | none => .ok (.entered process, ())
        | some frame => .ok (.resumed frame, ()) := by
  obtain ⟨linked, process, runtime, prepared, launched, -, -⟩ := ground.prepares fits pid
  refine ⟨process, runtime, launched, fun n traps last answered => ?_⟩
  have program : Program.fromLinked "user-syscalls" (addresses08 image).start (addresses08 image).start
      (addresses08 image).stop = .ok ⟨_, (job08 image).start, (job08 image).start, (job08 image).stop⟩ := linked
  unfold one08
  dsimp only
  rw [program, ground.sound.stackRanges, answered]
  change (do
    let process ← (layout.prepareProcess hart pid _ layout.userStack layout.trapStack).mapError ExitPanic.manager
    _) = _
  rw [prepared]
  cases last <;> rfl

/-- An environment call that the program makes at one of its known places. -/
theorem Ground.calls08 (ground : Ground layout image hart) (fits : (job08 image).Fits) (result : Int)
    (answered : Answered08 layout image traps) (here : image.code.fetch c.1 = some (.ecall, next))
    (inside : (⟨(job08 image).start, (job08 image).stop⟩ : AddressRange).Contains c.1) (before : c.1 < next)
    (below : next ≤ (job08 image).stop) (known : (addresses08 image).KnownEcall c.1)
    (pointer : c.2.x sp = layout.userStackEnd - 16)
    (returns : Syscall.dispatch (c.2.x a7) (c.2.x a0) = .ret result)
    (after : ∀ traps, Answered08 layout image traps → Inevitably (lesson08 layout image elsewhere hart pid).Step goal
      ((s.prints (put c.2)).running traps (next, c.2.set a0 (BitVec.ofInt 64 result)))) :
    Inevitably (lesson08 layout image elsewhere hart pid).Step goal (s.running traps c) := by
  have behind := ground.linked.ecall c.1 next here
  have room := room_behind behind before
  obtain ⟨process, runtime, -, one⟩ := ground.answers08 fits pid
  obtain ⟨last, answered⟩ := answered
  refine Lesson.resumes rfl (machine_ecall elsewhere here) fun sstatus stval mode => ?_
  have valid := validates ground.sound (u := userOf c) inside pointer mode stval
  obtain ⟨frame, applied⟩ : ∃ frame, applyReturn (raised layout (userOf c) sstatus 8 stval).frame result
      (job08 image).stop = .ok frame := by
    apply applyReturn_ok
    · exact Nat.le_sub_one_of_lt room
    · change c.1 + 4 ≤ _
      rwa [← behind]
  have handled : handleLesson08 layout (addresses08 image) layout.trapEntry
      (raised layout (userOf c) sstatus 8 stval).address (raised layout (userOf c) sstatus 8 stval).frame =
        .ok frame := by
    have known_ : (addresses08 image).KnownEcall (raised layout (userOf c) sstatus 8 stval).frame.sepc := known
    have dispatched : Syscall.dispatch ((raised layout (userOf c) sstatus 8 stval).frame.x 17)
        ((raised layout (userOf c) sstatus 8 stval).frame.x 10) = .ret result := returns
    unfold handleLesson08
    change (do
      let _ ← validateUserTrap layout layout.trapEntry layout.frameAddress ((userOf c).save sstatus (exceptionCause 8) stval)
        (job08 image).start (job08 image).stop
      _) = _
    rw [valid]
    change (if _ then _ else _) = _
    rw [if_pos known_, dispatched]
    exact mapError_ok.mpr applied
  have snoc := answered08_snoc answered handled
  refine ⟨frame, (), one s.ended.length _ _ snoc, ?_⟩
  have loaded := (load_resumed (applyReturn_resumed applied) c.2.mem room).trans (answered_core c _ behind)
  have printed_ := printed_ecall layout c sstatus stval
  change Inevitably _ goal { s with
    console := s.console ++ printed (raised layout (userOf c) sstatus 8 stval).frame
    user := some (traps ++ [raised layout (userOf c) sstatus 8 stval], .load frame c.2.mem) }
  rw [loaded, printed_]
  exact after _ ⟨_, snoc⟩

/-- The registers, the word and the stack pointer that the program checks. -/
structure Kept08 (top : Word) (h : Rv64User.Hart) : Prop where
  second : h.x s2 = 0x2222333344445555
  third : h.x s3 = 0x6666777788889999
  word : load h.mem top = 0x1122334455667788
  pointer : h.x sp = top

/-- The first block of the program up to its call. -/
def setup08 : List (Op Label) :=
  [.li s2 0x2222333344445555, .li s3 0x6666777788889999, .li t1 0x1122334455667788, .sd t1 0 sp, .li a7 999, .li a0 0]

theorem Kept08.begins {top : Word} {h : Rv64User.Hart} (code : Code Label) (pointer : h.x sp = top) :
    Kept08 top (code.line setup08 h) := by
  constructor <;> simp [setup08, Code.line, Op.run, Instr.run, pointer, load_store_same]

theorem Kept08.set {top : Word} {h : Rv64User.Hart} (kept : Kept08 top h) (r : Rv64.Reg) (v : Word)
    (apart : r ≠ s2 ∧ r ≠ s3 ∧ r ≠ sp) : Kept08 top (h.set r v) := by
  obtain ⟨second, third, word, pointer⟩ := kept
  obtain ⟨notSecond, notThird, notPointer⟩ := apart
  constructor <;> simp [Ne.symm notSecond, Ne.symm notThird, Ne.symm notPointer, second, third, word, pointer]

/-- The checks of the program pass, and leave `a0` alone. -/
theorem Kept08.checks {code : Code Label} {top : Word} {h : Rv64User.Hart} (kept : Kept08 top h)
    (place : code.Within start stop pc (user08_check ++ rest) blockEnd)
    (after : ∀ next g, code.Within start stop next rest blockEnd → Kept08 top g →
      Inevitably code.Steps aim (next, g)) : Inevitably code.Steps aim (pc, h) := by
  obtain ⟨second, third, word, pointer⟩ := kept
  refine Code.Within.line [.li t0 0x2222333344445555] place rfl fun _ place => ?_
  refine Code.Within.falls place rfl (by simp [Code.line, Op.run, Instr.run, Instr.target, second]) fun _ place => ?_
  refine Code.Within.line [.li t0 0x6666777788889999] place rfl fun _ place => ?_
  refine Code.Within.falls place rfl (by simp [Code.line, Op.run, Instr.run, Instr.target, third]) fun _ place => ?_
  refine Code.Within.line [.ld t1 0 sp, .li t0 0x1122334455667788] place rfl fun _ place => ?_
  refine Code.Within.falls place rfl (by simp [Code.line, Op.run, Instr.run, Instr.target, pointer, word]) fun next place => ?_
  refine after next _ place ⟨?_, ?_, ?_, ?_⟩ <;> simp [Code.line, Op.run, Instr.run, second, third, word, pointer]

/-- The program has printed its letters and stays at its end. -/
structure Resting08 (image : Image) (s : System Unit) : Prop where
  running : s.ended = []
  console : s.console = [79, 75, 10]
  user : ∃ traps u, s.user = some (traps, u) ∧ u.pc = image.code.addr .user08_done

theorem Ground.done08 (ground : Ground layout image hart) :
    ∃ next, image.code.fetch (image.code.addr .user08_done) = some (.j .user08_done, next) := by
  have done_ := Code.Holds.block [_, _, _, _, _, _] _ ground.linked.user08
  obtain ⟨next, here, -⟩ := Code.Within.fetch done_
  exact ⟨next, here⟩

theorem machine_done (elsewhere : Machine Memory) (here : image.code.fetch (image.code.addr l) = some (.j l, next))
    (place : u.pc = image.code.addr l) :
    machine image.code elsewhere u = .next ⟨u.x, u.zero, image.code.addr l, u.stack⟩ := by
  unfold machine
  rw [place, here]
  rfl

/-- There it stays. -/
theorem Resting08.stays (resting : Resting08 image s) (ground : Ground layout image hart)
    (step : (lesson08 layout image elsewhere hart pid).Step s t) : Resting08 image t := by
  obtain ⟨ended, console, traps, u, user, place⟩ := resting
  obtain ⟨next, here⟩ := ground.done08
  have ran := machine_done elsewhere here place
  cases step with
  | enter managing => exact absurd (managing.symm.trans user) (by simp)
  | next running other =>
    cases user.symm.trans running
    cases ran.symm.trans other
    exact ⟨ended, console, _, _, rfl, rfl⟩
  | resume running trap | finish running trap =>
    cases user.symm.trans running
    cases ran.symm.trans trap

/-- A letter: the call comes back with 0, and the check behind it passes. -/
theorem Ground.prints08 (ground : Ground layout image hart) (fits : (job08 image).Fits) {c : Int} (printable : Printable c)
    (answered : Answered08 layout image traps) (known : (addresses08 image).KnownEcall pc)
    (place : image.code.Within (job08 image).start (job08 image).stop pc (.ecall :: .bnez a0 .user08_fail :: rest) blockEnd)
    {h : Rv64User.Hart} (kept : Kept08 (layout.userStackEnd - 16) h) (number : h.x a7 = 1)
    (letter : h.x a0 = BitVec.ofInt 64 c)
    (after : ∀ traps next g, Answered08 layout image traps →
      image.code.Within (job08 image).start (job08 image).stop next rest blockEnd →
      Kept08 (layout.userStackEnd - 16) g → Inevitably (lesson08 layout image elsewhere hart pid).Step goal
        ((s.prints [BitVec.ofInt 8 c]).running traps (next, g))) :
    Inevitably (lesson08 layout image elsewhere hart pid).Step goal (s.running traps (pc, h)) := by
  obtain ⟨zero, byte⟩ := printable
  obtain ⟨_, here, before, below, rest⟩ := place.fetch
  refine ground.calls08 fits 0 answered here (contains_own place.low before below) before below known kept.pointer ?_
    fun traps answered => Lesson.computes ?_
  · rw [number, letter]
    exact zero
  have put_ : put h = [BitVec.ofInt 8 c] := (put_putchar number).trans (letter ▸ byte)
  refine rest.falls rfl (by simp [Instr.target]) fun next rest => .now ?_
  change Inevitably _ _ ((s.prints (put h)).running traps (next, h.set a0 (BitVec.ofInt 64 0)))
  rw [put_]
  exact after traps next _ answered rest (kept.set a0 _ (by decide))

/-- A call that is refused: it comes back with its error, and the check behind it passes. -/
theorem Ground.refused08 (ground : Ground layout image hart) (fits : (job08 image).Fits) (error : Int)
    (answered : Answered08 layout image traps) (known : (addresses08 image).KnownEcall pc)
    (place : image.code.Within (job08 image).start (job08 image).stop pc
      (.ecall :: .li t0 error :: .bne a0 t0 .user08_fail :: rest) blockEnd)
    {h : Rv64User.Hart} (kept : Kept08 (layout.userStackEnd - 16) h)
    (refused : Syscall.dispatch (h.x a7) (h.x a0) = .ret error) (silent : put h = [])
    (after : ∀ traps next g, Answered08 layout image traps →
      image.code.Within (job08 image).start (job08 image).stop next rest blockEnd →
      Kept08 (layout.userStackEnd - 16) g →
      Inevitably (lesson08 layout image elsewhere hart pid).Step goal (s.running traps (next, g))) :
    Inevitably (lesson08 layout image elsewhere hart pid).Step goal (s.running traps (pc, h)) := by
  obtain ⟨_, here, before, below, rest⟩ := place.fetch
  refine ground.calls08 fits error answered here (contains_own place.low before below) before below known kept.pointer
    refused fun traps answered => Lesson.computes ?_
  rw [silent, System.prints_nil]
  refine Code.Within.line [.li t0 error] rest rfl fun _ rest => ?_
  refine Code.Within.falls rest rfl ?_ fun next rest => .now ?_
  · simp [Code.line, Op.run, Instr.run, Instr.target]
  · exact after traps next _ answered rest ((kept.set a0 _ (by decide)).set t0 _ (by decide))

/-- The arguments of the next call. -/
def ask (number argument : Int) : List (Op Label) := [.li a7 number, .li a0 argument]

theorem Kept08.asks {top : Word} {h : Rv64User.Hart} (kept : Kept08 top h) (code : Code Label) (number argument : Int) :
    Kept08 top (code.line (ask number argument) h) ∧ (code.line (ask number argument) h).x a7 = BitVec.ofInt 64 number ∧
      (code.line (ask number argument) h).x a0 = BitVec.ofInt 64 argument := by
  refine ⟨(kept.set a7 _ (by decide)).set a0 _ (by decide), ?_, ?_⟩ <;> simp [ask, Code.line, Op.run, Instr.run]

end lesson08

/-! ### Lesson 09 -/

/-- The program of the `n`-th process. -/
def job09 (image : Image) (n : Nat) : Job :=
  if n = 0 then ⟨"exit-demo", image.code.addr .user09_entry, image.user09_end, fun _ => true⟩
  else ⟨"exit-stress", image.code.addr .user09_stress_entry, image.user09_stress_end, fun _ => true⟩

/-- The code that the `n`-th process exits with. -/
def code09 (n : Nat) : BitVec 8 := if n = 0 then 7 else 0

section lesson09
variable {goal : System Lesson09.Kernel → Prop} {s : System Lesson09.Kernel} {c : Core} {next : Word}
  {k k' : Lesson09.Kernel} {n : Nat} {trap : Trap}

/-- No trap has been seen yet, or every trap so far was at the one address. -/
def Fresh09 (layout : Layout) (k : Lesson09.Kernel) : Prop :=
  k.expectedTrapFrame = 0 ∨ k.expectedTrapFrame = layout.frameAddress

theorem Fresh09.record (fresh : Fresh09 layout k) :
    k.recordTrapFrame layout.frameAddress = .ok { k with expectedTrapFrame := layout.frameAddress } := by
  unfold Lesson09.Kernel.recordTrapFrame
  rcases fresh with zero | same
  · rw [if_pos zero]
  · rw [if_neg (not_not.mpr same)]
    split
    · rfl
    · rw [← same]

/-- An `ecall` of one of the two programs that the handler knows. -/
structure Known09 (layout : Layout) (image : Image) (range : AddressRange) (u : User Memory) : Prop where
  found : (addresses09 image).codeAddresses u.pc = .ok (range.start, range.stop)
  inside : range.Contains u.pc
  kind : ∃ kind, (addresses09 image).ecallKind u.pc = some kind
  pointer : u.x sp = layout.userStackEnd - 16

theorem handle09 (sound : layout.Sound) (known : Known09 layout image range u) (mode : sstatus &&& SSTATUS_SPP = 0)
    (fresh : Fresh09 layout k) (vector : k.stvec = layout.trapEntry) (stval : Word) :
    handleLesson09 layout (addresses09 image) k (raised layout u sstatus 8 stval).address
        (raised layout u sstatus 8 stval).frame =
      match Syscall.dispatch (u.x a7) (u.x a0) with
      | .ret result => do
        let frame ← (applyReturn (raised layout u sstatus 8 stval).frame result range.stop).mapError .runtime
        .ok (ACTION_RESUME_USER, frame, { k with expectedTrapFrame := layout.frameAddress })
      | .exit code => .ok (ACTION_TERMINATE_PROCESS, (raised layout u sstatus 8 stval).frame,
          { k with expectedTrapFrame := layout.frameAddress, lastExitCode := code.setWidth 64 }) := by
  obtain ⟨found, inside, ⟨kind, known⟩, pointer⟩ := known
  have found_ : (addresses09 image).codeAddresses (raised layout u sstatus 8 stval).frame.sepc =
      .ok (range.start, range.stop) := found
  have known_ : (addresses09 image).ecallKind (raised layout u sstatus 8 stval).frame.sepc = some kind := known
  have valid : validateUserTrap layout layout.trapEntry (raised layout u sstatus 8 stval).address
      (raised layout u sstatus 8 stval).frame range.start range.stop = .ok layout.frameAddress :=
    validates sound inside pointer mode stval
  unfold handleLesson09
  simp only [found_, vector, valid, fresh.record, known_, bind, Except.bind]
  rfl

/-- As long as `run_user` has not returned, its next trap goes on from the
statics that the others left. -/
theorem runUser09_snoc (ran : runUser09 layout user k traps = .ok (last, k', none)) :
    runUser09 layout user k (traps ++ [trap]) = runUser09 layout user k' [trap] := by
  induction traps generalizing k last with
  | nil =>
    cases ran
    rfl
  | cons first traps ih =>
    unfold runUser09 at ran
    obtain ⟨answer, first_, ran⟩ := bind_ok.mp ran
    obtain ⟨action, before, middle⟩ := answer
    dsimp only at ran
    split at ran
    · cases ran
    · rename_i resumes
      obtain ⟨⟨rest, final, action'⟩, others, same⟩ := bind_ok.mp ran
      cases same
      have more : traps ++ [trap] ≠ [] := by simp
      rw [List.cons_append, runUser09.eq_2]
      simp only [first_, bind, Except.bind, if_neg resumes, ih others, if_neg more]
      cases runUser09 layout user final [trap] <;> rfl

/-- Traps of a process that have all resumed it, with the statics behind them. -/
structure Quiet09 (layout : Layout) (image : Image) (traps : List Trap) (k k' : Lesson09.Kernel) : Prop where
  ran : ∃ last, runUser09 layout (addresses09 image) { k with lastExitCode := NO_EXIT_CODE } traps = .ok (last, k', none)
  fresh : Fresh09 layout k'

theorem Quiet09.nil (fresh : Fresh09 layout k) :
    Quiet09 layout image [] k { k with lastExitCode := NO_EXIT_CODE, stvec := layout.userTrapEntry } :=
  ⟨⟨none, rfl⟩, fresh⟩

theorem Quiet09.resumes (quiet : Quiet09 layout image traps k k') (sound : layout.Sound)
    (known : Known09 layout image range u) (mode : sstatus &&& SSTATUS_SPP = 0) (room : u.pc.toNat + 4 < 2 ^ 64)
    (below : u.pc + 4 ≤ range.stop) (returns : Syscall.dispatch (u.x a7) (u.x a0) = .ret result) (stval : Word) :
    ∃ frame k'', Resumed (raised layout u sstatus 8 stval).frame frame result ∧ Fresh09 layout k'' ∧
      runUser09 layout (addresses09 image) { k with lastExitCode := NO_EXIT_CODE }
        (traps ++ [raised layout u sstatus 8 stval]) = .ok (some frame, k'', none) := by
  obtain ⟨⟨last, ran⟩, fresh⟩ := quiet
  obtain ⟨frame, applied⟩ : ∃ frame, applyReturn (raised layout u sstatus 8 stval).frame result range.stop = .ok frame :=
    applyReturn_ok (Nat.le_sub_one_of_lt room) below result
  have handled := handle09 sound known mode (k := { k' with stvec := layout.trapEntry }) fresh rfl stval
  rw [returns] at handled
  dsimp only at handled
  rw [applied] at handled
  refine ⟨frame, { k' with expectedTrapFrame := layout.frameAddress, stvec := layout.userTrapEntry },
    applyReturn_resumed applied, .inr rfl, ?_⟩
  rw [runUser09_snoc ran, runUser09.eq_2, handled]
  rfl

theorem Quiet09.ends (quiet : Quiet09 layout image traps k k') (sound : layout.Sound)
    (known : Known09 layout image range u) (mode : sstatus &&& SSTATUS_SPP = 0)
    (exits : Syscall.dispatch (u.x a7) (u.x a0) = .exit code) (stval : Word) :
    ∃ k'', k''.lastExitCode = code.setWidth 64 ∧ Fresh09 layout k'' ∧
      runUser09 layout (addresses09 image) { k with lastExitCode := NO_EXIT_CODE }
        (traps ++ [raised layout u sstatus 8 stval]) = .ok (none, k'', some ACTION_TERMINATE_PROCESS) := by
  obtain ⟨⟨last, ran⟩, fresh⟩ := quiet
  have handled := handle09 sound known mode (k := { k' with stvec := layout.trapEntry }) fresh rfl stval
  rw [exits] at handled
  refine ⟨{ k' with expectedTrapFrame := layout.frameAddress, stvec := layout.trapEntry, lastExitCode := code.setWidth 64 },
    rfl, .inr rfl, ?_⟩
  rw [runUser09_snoc ran, runUser09.eq_2, handled]
  rfl

/-- `run_lesson09` around the run of its `n`-th process. -/
theorem Ground.runs09 (ground : Ground layout image hart) (fits : (job09 image n).Fits)
    (pids : firstPid.toNat + n < 2 ^ 64) :
    ∃ process runtime, Launched layout (job09 image n) process runtime ∧
      process.id = firstPid + BitVec.ofNat 64 n ∧ process.state = .running ∧ ∀ traps k,
      one09 layout image hart firstPid n traps k = (do
        let (frame, k, action) ← (runUser09 layout (addresses09 image) { k with lastExitCode := NO_EXIT_CODE }
          traps).mapError .handler
        match action, frame with
        | none, none => .ok (.entered process, k)
        | none, some frame => .ok (.resumed frame, k)
        | some action, _ => do
          (require (action = ACTION_TERMINATE_PROCESS) .unexpectedAction).mapError .manager
          let (code, k) ← takeExitCode k
          if code = code09 n then do
            let process ← (process.finishExit code).mapError .manager
            (require (process.state = .exited (if n = 0 then 7 else 0)) .unfinished).mapError .manager
            (clearRuntimeStacks hart layout.userStack layout.trapStack).mapError .manager
            .ok (.ended process, k)
          else .error (.exited code)) := by
  obtain ⟨linked, process, runtime, prepared, launched, pid, state⟩ :=
    ground.prepares fits (firstPid + BitVec.ofNat 64 n)
  refine ⟨process, runtime, launched, pid, state, fun traps k => ?_⟩
  have program : (if n = 0 then Program.fromLinked "exit-demo" (addresses09 image).start (addresses09 image).start
      (addresses09 image).stop else Program.fromLinked "exit-stress" (addresses09 image).stressStart
        (addresses09 image).stressStart (addresses09 image).stressStop) =
      .ok ⟨(job09 image n).name, (job09 image n).start, (job09 image n).start, (job09 image n).stop⟩ := by
    rw [← linked]
    unfold job09
    split <;> rfl
  unfold one09
  rw [ground.sound.stackRanges]
  simp only [program, Except.mapError, bind, Except.bind, if_pos pids, prepared]
  rfl

theorem takeExitCode_ok {code : BitVec 8} (left : k.lastExitCode = code.setWidth 64) :
    takeExitCode k = .ok (code, { k with lastExitCode := NO_EXIT_CODE }) := by
  have small : ¬ (0xff : Word) < code.setWidth 64 := by
    rw [BitVec.lt_def]
    have bound := code.isLt
    simp
    omega
  unfold takeExitCode
  rw [left, if_neg small]
  simp

/-- What the manager does behind a `run_user` that has returned. -/
theorem Ground.settles09 (ground : Ground layout image hart) {process : Process} (running : process.state = .running)
    (left : k.lastExitCode = (code09 n).setWidth 64) :
    (do
      (require (ACTION_TERMINATE_PROCESS = ACTION_TERMINATE_PROCESS) .unexpectedAction).mapError ExitPanic.manager
      let (code, k) ← takeExitCode k
      if code = code09 n then do
        let process ← (process.finishExit code).mapError .manager
        (require (process.state = .exited (if n = 0 then 7 else 0)) .unfinished).mapError .manager
        (clearRuntimeStacks hart layout.userStack layout.trapStack).mapError .manager
        .ok (.ended process, k)
      else .error (.exited code) : Except ExitPanic (Verdict × Lesson09.Kernel)) =
    .ok (.ended { process with state := .exited (code09 n).toNat }, { k with lastExitCode := NO_EXIT_CODE }) := by
  have cleared : clearRuntimeStacks hart layout.userStack layout.trapStack = .ok () := require_ok ground.manager _
  have finished : process.finishExit (code09 n) = .ok { process with state := .exited (code09 n).toNat } := by
    unfold Process.finishExit Process.advance Process.transition
    rw [running]
    rfl
  have same : (ProcessState.exited (code09 n).toNat) = .exited (if n = 0 then 7 else 0) := by
    unfold code09
    split <;> rfl
  rw [takeExitCode_ok left]
  simp only [require, Except.mapError, bind, Except.bind, if_true, finished, same, cleared]

section run
variable (ground : Ground layout image hart) (fits : (job09 image s.ended.length).Fits)
  (pids : firstPid.toNat + s.ended.length < 2 ^ 64)
include ground fits pids

/-- The manager starts its next process. -/
theorem Ground.starts09 (managing : s.user = none) (more : s.ended.length < 101)
    (after : ∀ h : Rv64User.Hart, h.x sp = layout.userStackEnd - 16 →
      Inevitably (lesson09 layout image elsewhere hart firstPid).Step goal
        (s.running [] ((job09 image s.ended.length).start, h))) :
    Inevitably (lesson09 layout image elsewhere hart firstPid).Step goal s := by
  obtain ⟨process, runtime, launched, -, -, one⟩ := ground.runs09 fits pids
  refine Lesson.enters managing more (one [] s.kernel) launched.user fun stack => ?_
  obtain ⟨h, started, pointer⟩ := launched_started launched stack
  rw [started]
  exact after h pointer

/-- A call that returns. -/
theorem Ground.calls09 (result : Int) (quiet : Quiet09 layout image traps s.kernel k')
    (known : Known09 layout image range (userOf c)) (here : image.code.fetch c.1 = some (.ecall, next))
    (before : c.1 < next) (below : next ≤ range.stop)
    (returns : Syscall.dispatch (c.2.x a7) (c.2.x a0) = .ret result)
    (after : ∀ traps k', Quiet09 layout image traps s.kernel k' →
      Inevitably (lesson09 layout image elsewhere hart firstPid).Step goal
        ((s.prints (put c.2)).running traps (next, c.2.set a0 (BitVec.ofInt 64 result)))) :
    Inevitably (lesson09 layout image elsewhere hart firstPid).Step goal (s.running traps c) := by
  have behind := ground.linked.ecall c.1 next here
  have room := room_behind behind before
  rw [behind] at below
  obtain ⟨process, runtime, -, -, -, one⟩ := ground.runs09 fits pids
  refine Lesson.resumes rfl (machine_ecall elsewhere here) fun sstatus stval mode => ?_
  obtain ⟨frame, k, resumed, fresh, ran⟩ := quiet.resumes ground.sound known mode room below returns stval
  refine ⟨frame, k, ?_, ?_⟩
  · refine (one (traps ++ [raised layout (userOf c) sstatus 8 stval]) s.kernel).trans ?_
    rw [ran]
    rfl
  have loaded := (load_resumed resumed c.2.mem room).trans (answered_core c _ behind)
  have printed_ := printed_ecall layout c sstatus stval
  change Inevitably _ goal { s with
    console := s.console ++ printed (raised layout (userOf c) sstatus 8 stval).frame
    user := some (traps ++ [raised layout (userOf c) sstatus 8 stval], .load frame c.2.mem) }
  rw [loaded, printed_]
  exact after _ k ⟨⟨_, ran⟩, fresh⟩

/-- The call of `exit` that the manager expects of this process. -/
theorem Ground.exits09 (quiet : Quiet09 layout image traps s.kernel k')
    (known : Known09 layout image range (userOf c)) (here : image.code.fetch c.1 = some (.ecall, next))
    (number : c.2.x a7 = 2) (argument : c.2.x a0 = (code09 s.ended.length).setWidth 64)
    (after : ∀ process k, Fresh09 layout k → process.id = firstPid + BitVec.ofNat 64 s.ended.length →
      process.state = .exited (code09 s.ended.length).toNat →
      Inevitably (lesson09 layout image elsewhere hart firstPid).Step goal ⟨k, s.ended ++ [process], s.console, none⟩) :
    Inevitably (lesson09 layout image elsewhere hart firstPid).Step goal (s.running traps c) := by
  obtain ⟨process, runtime, -, pid, state, one⟩ := ground.runs09 fits pids
  have exits : Syscall.dispatch (c.2.x a7) (c.2.x a0) = .exit (code09 s.ended.length) :=
    dispatch_exit.mpr ⟨number, argument⟩
  refine Lesson.finishes rfl (machine_ecall elsewhere here) fun sstatus stval mode => ?_
  obtain ⟨k, code, fresh, ran⟩ := quiet.ends ground.sound known mode exits stval
  refine ⟨{ process with state := .exited (code09 s.ended.length).toNat }, { k with lastExitCode := NO_EXIT_CODE }, ?_, ?_⟩
  · refine (one (traps ++ [raised layout (userOf c) sstatus 8 stval]) s.kernel).trans ?_
    rw [ran]
    exact Ground.settles09 ground state code
  have other : c.2.x a7 ≠ 1 := number.trans_ne (by decide)
  change Inevitably _ goal ⟨_, s.ended ++ [_],
    s.console ++ printed (raised layout (userOf c) sstatus 8 stval).frame, none⟩
  rw [printed_ecall, put_silent other, List.append_nil]
  exact after { process with state := .exited (code09 s.ended.length).toNat } _ fresh pid rfl

end run

/-- The calls that `user09_ecall_kind` names. -/
def Named09 (image : Image) (pc : Word) : Prop :=
  pc = image.code.addr .user09_ecall_invalid_exit ∨ pc = image.code.addr .user09_ecall_exit7 ∨
    pc = image.code.addr .user09_stress_ecall

theorem Named09.kind (named : Named09 image pc) : ∃ kind, (addresses09 image).ecallKind pc = some kind := by
  unfold Lesson09.User09.ecallKind
  split
  · exact ⟨_, rfl⟩
  · rename_i notInvalid
    split
    · exact ⟨_, rfl⟩
    · rename_i notExit
      exact ⟨_, if_pos ((named.resolve_left notInvalid).resolve_left notExit)⟩

/-- The first program is asked for first. -/
theorem known09_main (low : image.code.addr .user09_entry ≤ c.1) (before : c.1 < next) (below : next ≤ image.user09_end)
    (named : Named09 image c.1) (pointer : c.2.x sp = layout.userStackEnd - 16) :
    Known09 layout image ⟨image.code.addr .user09_entry, image.user09_end⟩ (userOf c) := by
  have inside : image.code.addr .user09_entry ≤ c.1 ∧ c.1 < image.user09_end :=
    contains_own low before below
  exact ⟨if_pos inside, inside, named.kind, pointer⟩

/-- A call of the second program is held to one of the two ranges. -/
theorem known09_stress (low : image.code.addr .user09_stress_entry ≤ c.1) (before : c.1 < next)
    (below : next ≤ image.user09_stress_end) (named : Named09 image c.1)
    (pointer : c.2.x sp = layout.userStackEnd - 16) : ∃ range, Known09 layout image range (userOf c) := by
  have inside : image.code.addr .user09_stress_entry ≤ c.1 ∧ c.1 < image.user09_stress_end :=
    contains_own low before below
  by_cases main : image.code.addr .user09_entry ≤ c.1 ∧ c.1 < image.user09_end
  · exact ⟨⟨_, _⟩, if_pos main, main, named.kind, pointer⟩
  · exact ⟨⟨_, _⟩, (if_neg main).trans (if_pos inside), inside, named.kind, pointer⟩

section programs
variable (ground : Ground layout image hart) (pids : firstPid.toNat + s.ended.length < 2 ^ 64)
  (fresh : Fresh09 layout s.kernel) (managing : s.user = none)
include ground pids fresh managing

/-- The first process: `exit(256)` comes back, `exit(7)` does not. -/
theorem Ground.runs_demo (first : s.ended = [])
    (after : ∀ process k, Fresh09 layout k → process.id = firstPid + BitVec.ofNat 64 s.ended.length →
      process.state = .exited 7 →
      Inevitably (lesson09 layout image elsewhere hart firstPid).Step goal ⟨k, s.ended ++ [process], s.console, none⟩) :
    Inevitably (lesson09 layout image elsewhere hart firstPid).Step goal s := by
  have zero : s.ended.length = 0 := List.length_eq_zero_iff.mpr first
  have job_ : job09 image s.ended.length = ⟨"exit-demo", image.code.addr .user09_entry, image.user09_end, fun _ => true⟩ :=
    if_pos zero
  have code : code09 s.ended.length = 7 := if_pos zero
  have entry : image.code.Within (image.code.addr .user09_entry) image.user09_end _ _ _ :=
    Code.Holds.block [] _ ground.linked.user09
  have invalid : image.code.Within (image.code.addr .user09_entry) image.user09_end _ _ _ :=
    Code.Holds.block [_] _ ground.linked.user09
  have last : image.code.Within (image.code.addr .user09_entry) image.user09_end _ _ _ :=
    Code.Holds.block [_, _] _ ground.linked.user09
  have fits : (job09 image s.ended.length).Fits := job_ ▸ .of_entry entry (ground.linked.aligned _ (by simp))
  obtain ⟨_, here, before, below, rest⟩ := invalid.fetch
  obtain ⟨_, here', before', below', -⟩ := last.fetch
  refine ground.starts09 fits pids managing (by omega) fun h pointer => ?_
  rw [job_]
  refine Lesson.computes (entry.block _ rfl (.now ?_))
  -- exit(256) comes back with -2
  refine ground.calls09 fits pids (-2) (.nil fresh) (known09_main invalid.low before below (.inl rfl) ?_) here before
    below ?_ fun traps k' quiet => Lesson.computes ?_
  · simpa [Code.line, Op.run, Instr.run] using pointer
  · simp [Code.line, Op.run, Instr.run]
    rfl
  refine Code.Within.line [.li t0 (-2)] rest rfl fun _ rest => ?_
  refine Code.Within.falls rest rfl (by simp [Code.line, Op.run, Instr.run, Instr.target]) fun _ rest => ?_
  refine rest.block _ rfl (.now ?_)
  rw [put_silent (by simp [Code.line, Op.run, Instr.run]), System.prints_nil]
  refine ground.exits09 fits pids quiet (known09_main last.low before' below' (.inr (.inl rfl)) ?_) here' ?_ ?_ ?_
  · simpa [Code.line, Op.run, Instr.run] using pointer
  · simp [Code.line, Op.run, Instr.run]
  · simp [Code.line, Op.run, Instr.run, code]
  · rw [code]
    exact after

/-- Each process behind it exits with 0. -/
theorem Ground.runs_child (later : s.ended ≠ []) (more : s.ended.length < 101)
    (after : ∀ process k, Fresh09 layout k → process.id = firstPid + BitVec.ofNat 64 s.ended.length →
      process.state = .exited 0 →
      Inevitably (lesson09 layout image elsewhere hart firstPid).Step goal ⟨k, s.ended ++ [process], s.console, none⟩) :
    Inevitably (lesson09 layout image elsewhere hart firstPid).Step goal s := by
  have past : s.ended.length ≠ 0 := fun zero => later (List.length_eq_zero_iff.mp zero)
  have job_ : job09 image s.ended.length =
      ⟨"exit-stress", image.code.addr .user09_stress_entry, image.user09_stress_end, fun _ => true⟩ := if_neg past
  have code : code09 s.ended.length = 0 := if_neg past
  have entry : image.code.Within (image.code.addr .user09_stress_entry) image.user09_stress_end _ _ _ :=
    Code.Holds.block [] _ ground.linked.user09_stress
  have ecall : image.code.Within (image.code.addr .user09_stress_entry) image.user09_stress_end _ _ _ :=
    Code.Holds.block [_] _ ground.linked.user09_stress
  have fits : (job09 image s.ended.length).Fits := job_ ▸ .of_entry entry (ground.linked.aligned _ (by simp))
  obtain ⟨_, here, before, below, -⟩ := ecall.fetch
  refine ground.starts09 fits pids managing more fun h pointer => ?_
  rw [job_]
  refine Lesson.computes (entry.block _ rfl (.now ?_))
  have pointer_ : (image.code.line [.li a7 2, .li a0 0] h).x sp = layout.userStackEnd - 16 := by
    simpa [Code.line, Op.run, Instr.run] using pointer
  obtain ⟨range, known⟩ := known09_stress (c := (image.code.addr .user09_stress_ecall, _)) ecall.low before below
    (.inr (.inr rfl)) pointer_
  refine ground.exits09 fits pids (.nil fresh) known here ?_ ?_ ?_
  · simp [Code.line, Op.run, Instr.run]
  · simp [Code.line, Op.run, Instr.run, code]
  · rw [code]
    exact after

end programs

/-- The children that are left, by induction on how many these are. -/
theorem Ground.runs_children (ground : Ground layout image hart) (pids : firstPid.toNat + 100 < 2 ^ 64) (left : Nat)
    (at_ : s.ended.length + left = 101) (past : s.ended ≠ [])
    (before : Managed (Fresh09 layout) firstPid output states s) :
    Inevitably (lesson09 layout image elsewhere hart firstPid).Step
      (Managed (Fresh09 layout) firstPid output (states ++ List.replicate left (.exited 0))) s := by
  induction left generalizing s states with
  | zero =>
    rw [List.replicate_zero, List.append_nil]
    exact .now before
  | succ left ih =>
    refine ground.runs_child (by omega) before.fresh before.managing past (by omega) fun process k fresh pid state => ?_
    have after := before.finished fresh pid state []
    rw [List.append_nil, List.append_nil] at after
    rw [List.replicate_succ, ← List.singleton_append, ← List.append_assoc]
    refine ih ?_ (by simp) after
    simp only [List.length_append, List.length_singleton]
    omega

end lesson09

end Neonos.LessonRuns
