import Neonos.BatchEnds

/-! One memory for everybody. Without address translation each task can store
over the words of the others; the user program does not, so a batch over the
one memory goes as if each task had a memory of its own. -/
namespace Neonos.UserScheduler
open Rv64.Reg Rv64User ByteMemory Scheduler Runs

variable {p : Placement} {elsewhere : Machine Memory} {b : Batch} {memories : TaskId → Memory} {turns : List Turn}

/-! ### Two tasks that differ in memory only -/

/-- Two tasks at one place with the same registers and the same word. -/
structure Twin (u w : User Memory) : Prop where
  pc : u.pc = w.pc
  alike : Alike (Placement.hart u) (Placement.hart w)

/-- Where code that keeps to its own word has got to from `u`: the stack pointer
is where it was, and so is everything apart from its word. -/
structure Keeps (u v : User Memory) : Prop where
  stack : v.x sp = u.x sp
  frame : ∀ a, Apart (u.x sp) a → load v.stack a = load u.stack a

theorem Keeps.refl (u : User Memory) : Keeps u u := ⟨rfl, fun _ _ => rfl⟩

theorem Keeps.trans (first : Keeps u v) (second : Keeps v w) : Keeps u w :=
  ⟨second.stack.trans first.stack,
    fun a apart => (second.frame a (first.stack ▸ apart)).trans (first.frame a apart)⟩

/-- An instruction that traps does so whatever the registers are. -/
theorem machine_traps (p : Placement) (elsewhere : Machine Memory) {k : Nat} {i : Instr Label}
    (here : listing.code[k]? = some i) (traps : i.Traps = true) :
    ∃ cause, ∀ u : User Memory, u.pc = p.addr k → p.machine elsewhere u = .trap cause := by
  have fetched := fetch_at p here
  cases i with
  | ecall =>
    refine ⟨8, fun u pc => ?_⟩
    unfold Placement.machine
    rw [pc, fetched]
  | illegal =>
    refine ⟨2, fun u pc => ?_⟩
    unfold Placement.machine
    rw [pc, fetched]
  | _ => cases traps

theorem Twin.steps (twin : Twin u w) (behaves : Behaves p elsewhere fault w)
    (ran : p.machine elsewhere u = .next u') :
    ∃ w', p.machine elsewhere w = .next w' ∧ Twin u' w' ∧ Keeps u u' := by
  obtain ⟨k, i, here, own, pc⟩ := behaves.inside
  cases traps : i.Traps with
  | false =>
    rw [machine_plain p here traps (twin.pc.trans pc)] at ran
    cases ran
    refine ⟨_, machine_plain p here traps pc, ⟨?_, twin.alike.run own⟩, Instr.OwnWord.stack own,
      fun a apart => Instr.OwnWord.frame own apart⟩
    rw [twin.alike.target]
  | true =>
    obtain ⟨cause, all⟩ := machine_traps p elsewhere here traps
    cases ran.symm.trans (all u (twin.pc.trans pc))

theorem Twin.traps (twin : Twin u w) (behaves : Behaves p elsewhere fault w)
    (trap : p.machine elsewhere u = .trap cause) : p.machine elsewhere w = .trap cause := by
  obtain ⟨k, i, here, -, pc⟩ := behaves.inside
  cases traps : i.Traps with
  | false => cases trap.symm.trans (machine_plain p here traps (twin.pc.trans pc))
  | true =>
    obtain ⟨cause', all⟩ := machine_traps p elsewhere here traps
    rw [all u (twin.pc.trans pc)] at trap
    rw [all w pc, trap]

theorem Twin.computes (twin : Twin u w) (behaves : ∀ w', Computes (p.machine elsewhere) w w' → Behaves p elsewhere fault w')
    (ran : Computes (p.machine elsewhere) u u') :
    ∃ w', Computes (p.machine elsewhere) w w' ∧ Twin u' w' ∧ Keeps u u' := by
  induction ran with
  | refl => exact ⟨w, .refl, twin, .refl u⟩
  | tail _ step ih =>
    obtain ⟨m, ran, twin, keeps⟩ := ih
    obtain ⟨w', step', twin, keeps'⟩ := twin.steps (behaves m ran) step
    exact ⟨w', ran.tail step', twin, keeps.trans keeps'⟩

theorem Twin.save (twin : Twin u w) (sstatus scause stval : Word) :
    u.save sstatus scause stval = w.save sstatus scause stval := by
  have registers : u.x = w.x := twin.alike.x
  unfold User.save
  rw [registers, twin.pc]

/-- The kernel cannot tell the two from their traps. -/
def Mirrors (raises : Machine Memory → User Memory → User Memory → TrapFrame → Prop) : Prop :=
  ∀ {p : Placement} {elsewhere : Machine Memory} {fault : Bool} {u w v : User Memory} {raw : TrapFrame}, Twin u w →
    (∀ w', Computes (p.machine elsewhere) w w' → Behaves p elsewhere fault w') → raises (p.machine elsewhere) u v raw →
      ∃ w', raises (p.machine elsewhere) w w' raw ∧ Twin v w' ∧ Keeps u v

theorem mirrors_fromUser : Mirrors FromUser := by
  intro p elsewhere fault u w v raw twin behaves raised
  obtain ⟨trapped, mode⟩ := raised
  cases trapped with
  | exception ran trap =>
    obtain ⟨w', ran', twin', keeps⟩ := twin.computes behaves ran
    rw [twin'.save] at mode ⊢
    exact ⟨w', ⟨.exception ran' (twin'.traps (behaves w' ran') trap), mode⟩, twin', keeps⟩
  | timer ran =>
    obtain ⟨w', ran', twin', keeps⟩ := twin.computes behaves ran
    rw [twin'.save] at mode ⊢
    exact ⟨w', ⟨.timer ran', mode⟩, twin', keeps⟩

theorem mirrors_gettingOn : Mirrors GettingOn := by
  intro p elsewhere fault u w v raw twin behaves raised
  by_cases timer : raw.scause = TIMER_INTERRUPT
  · obtain ⟨u₁, step, ran⟩ := raised.first timer
    obtain ⟨w₁, step', twin₁, keeps₁⟩ := twin.steps (behaves w .refl) step
    obtain ⟨w', ran', twin', keeps⟩ := twin₁.computes (fun x ran => behaves x (.head step' ran)) ran
    have mode := raised.mode
    have saved : ∃ sstatus stval, raw = v.save sstatus TIMER_INTERRUPT stval := by
      cases raised.trapped with
      | timer => exact ⟨_, _, rfl⟩
      | exception => exact absurd timer (exception_cause _).1
    obtain ⟨sstatus, stval, rfl⟩ := saved
    rw [twin'.save] at mode ⊢
    exact ⟨w', ⟨⟨.timer (.head step' ran'), mode⟩, fun _ => ⟨w₁, step', ran'⟩⟩, twin', keeps₁.trans keeps⟩
  · obtain ⟨w', raised', twin', keeps⟩ := mirrors_fromUser twin behaves raised.toFromUser
    exact ⟨w', ⟨raised', fun same => absurd same timer⟩, twin', keeps⟩

/-! ### The batch over the one memory -/

/-- The tasks' words share no byte. -/
def WordsApart (b : Batch) : Prop := ∀ j k : Fin b.specs.length, j ≠ k → Apart (b.word j) (b.word k)

theorem words_apart (b : Batch) : WordsApart b := by
  intro j k different
  have small (i : Fin b.specs.length) : (b.task i).val < 4 := (b.task i).isLt
  have other : (b.task j).val ≠ (b.task k).val := fun same => different (b.task_injective (Fin.ext same))
  have first := small j
  have second := small k
  unfold Batch.word Image.stackTop Apart
  rw [if_pos rfl, if_pos rfl]
  generalize (b.task j).val = x at *
  generalize (b.task k).val = y at *
  unfold STACK
  constructor <;> bv_omega

theorem Twin.refl (u : User Memory) : Twin u u := ⟨rfl, rfl, rfl⟩

/-- A task alone leaves its stack pointer where it is. -/
theorem solo_stack {u : User Memory} (behaves : ∀ calls w, Solo (p.machine elsewhere) u calls w → Behaves p elsewhere fault w)
    (solo : Solo (p.machine elsewhere) u calls v) : v.x sp = u.x sp := by
  obtain ⟨events, run, -⟩ := solo
  induction run with
  | nil => rfl
  | @snoc events w e v before last ih =>
    refine Eq.trans ?_ ih
    cases last with
    | next step =>
      obtain ⟨-, -, -, keeps⟩ := (Twin.refl w).steps (behaves _ w ⟨events, before, rfl⟩) step
      exact keeps.stack
    | @call result ecall returns =>
      have other : sp ≠ (10 : Fin 32) := by decide
      exact Function.update_of_ne other result w.x

/-- The stack pointer of a task is at its word throughout. -/
theorem task_stack (hosts : Hosts p b) (run : b.Executes (fun _ => p.machine elsewhere) memories turns s)
    (j : Fin b.specs.length) (stack : Memory) :
    (User.load (s.head.loop.tasks (b.task j)).frame stack).x sp = b.word j := by
  have solo := (Batch.executes_isolated run j).2.solo
  have begins := hosts.begins j (memories (b.task j))
  have kept := solo_stack (fun calls w solo => begins.behaves (hosts.runnable _ (List.get_mem b.specs j)) solo) solo
  refine Eq.trans kept ?_
  simp [User.load, Batch.firstFrame, TrapFrame.setX, Batch.word]

/-- The two systems are at the same loop head, and every task finds its word. -/
structure Mirrored (b : Batch) (s : Shared) (m : Scheduler.System Memory) : Prop where
  head : m.head = s.head
  words : ∀ j, load s.memory (b.word j) = load (m.memories (b.task j)) (b.word j)

section pass
variable {s : Shared} {m : Scheduler.System Memory} {r : Readings} {i : TaskId} {e : Loop}
  {raises : Machine Memory → User Memory → User Memory → TrapFrame → Prop}

/-- A task enters the one memory as it would enter its own. -/
theorem Mirrored.twin (mirrored : Mirrored b s m) (underway : Underway p elsewhere b memories turns m) (j : Fin b.specs.length)
    (before : b.Spares s.memory memory) :
    Twin (.load (m.head.loop.tasks (b.task j)).frame memory)
      (.load (m.head.loop.tasks (b.task j)).frame (m.memories (b.task j))) := by
  have pointer (stack : Memory) := task_stack underway.hosts underway.run j stack
  refine ⟨rfl, rfl, ?_⟩
  change load memory ((User.load _ memory).x sp) = load (m.memories (b.task j)) ((User.load _ (m.memories (b.task j))).x sp)
  rw [pointer, pointer, before j, mirrored.words j]

/-- What a task has stored is its word only. -/
theorem Keeps.spares {u : User Memory} (keeps : Keeps u v) (at_ : u.x sp = b.word j) (k : Fin b.specs.length)
    (other : k ≠ j) : load v.stack (b.word k) = load u.stack (b.word k) := by
  have apart := words_apart b j k other.symm
  rw [← at_] at apart
  exact keeps.frame _ apart

/-- The trap of a task over the one memory is one it could have over its own. -/
theorem Mirrored.pass (mirrors : Mirrors raises) (mirrored : Mirrored b s m)
    (underway : Underway p elsewhere b memories turns m) (entered : b.enter r s.head.loop = .ok (some (i, e)))
    (before : b.Spares s.memory memory) (raised : raises (p.machine elsewhere) (.load (e.slots i) memory) v raw) :
    ∃ j w, i = b.task j ∧ raises (p.machine elsewhere) (.load (e.slots i) (m.memories i)) w raw ∧ Twin v w ∧
      Keeps (.load (e.slots i) memory) v ∧ (User.load (e.slots i) memory).x sp = b.word j := by
  rw [← mirrored.head] at entered
  obtain ⟨j, rfl, slot, -⟩ := underway.enters_task entered
  rw [slot] at raised ⊢
  have twin := mirrored.twin underway j before
  obtain ⟨w, raised', twin', keeps⟩ := mirrors twin (fun w' ran => task_behaves underway.hosts underway.run j ran) raised
  exact ⟨j, w, rfl, raised', twin', keeps, task_stack underway.hosts underway.run j memory⟩

/-- It leaves the words as the trap over its own memory does. -/
theorem Mirrored.raised (mirrors : Mirrors raises) (mirrored : Mirrored b s m)
    (underway : Underway p elsewhere b memories turns m) (entered : b.enter r s.head.loop = .ok (some (i, e)))
    (before : b.Spares s.memory memory) (raised : raises (p.machine elsewhere) (.load (e.slots i) memory) v raw) :
    ∃ w, raises (p.machine elsewhere) (.load (e.slots i) (m.memories i)) w raw ∧
      ∀ j, load v.stack (b.word j) = load (Function.update m.memories i w.stack (b.task j)) (b.word j) := by
  obtain ⟨j, w, rfl, raised', twin, keeps, pointer⟩ := mirrored.pass mirrors underway entered before raised
  refine ⟨w, raised', fun k => ?_⟩
  by_cases same : k = j
  · subst same
    rw [Function.update_self]
    have at_ : v.x sp = b.word k := keeps.stack.trans pointer
    have words := twin.alike.word
    have registers : w.x sp = b.word k := (congrFun twin.alike.x sp).symm.trans at_
    change load v.stack (v.x sp) = load w.stack (w.x sp) at words
    rwa [at_, registers] at words
  · have apart : b.task k ≠ b.task j := fun equal => same (b.task_injective equal)
    rw [Function.update_of_ne apart, keeps.spares pointer k same, ← mirrored.words k]
    exact before k

end pass

/-- The two systems have got to the same point, in so many passes. -/
inductive Alongside (p : Placement) (elsewhere : Machine Memory) (b : Batch) (memories : TaskId → Memory) :
    Nat → Status Shared → Status (Scheduler.System Memory) → Prop where
  | going (mirrored : Mirrored b s m) (underway : Underway p elsewhere b memories past m) (passes : past.length = n) :
      Alongside p elsewhere b memories n (.going s) (.going m)
  | stopped (mirrored : Mirrored b s m) (underway : Underway p elsewhere b memories past m)
      (done : ∀ i, (m.head.loop.tasks i).state = .done) : Alongside p elsewhere b memories n (.stopped s) (.stopped m)
  | panicked (overflow : Overflow b n cause) : Alongside p elsewhere b memories n (.panicked cause) (.panicked cause)

/-- Every pass over the one memory is a pass over memories of their own. -/
theorem Alongside.follows {raises : Machine Memory → User Memory → User Memory → TrapFrame → Prop}
    (mirrors : Mirrors raises) (user : ∀ machine u v raw, raises machine u v raw → FromUser machine u v raw)
    (alongside : Alongside p elsewhere b memories n together apart)
    (step : b.SharedGoes (p.machine elsewhere) raises together together') :
    ∃ apart', b.Goes (fun _ => p.machine elsewhere) raises apart apart' ∧
      Alongside p elsewhere b memories (n + 1) together' apart' := by
  cases alongside with
  | stopped | panicked => cases step
  | @going s m past _ mirrored underway passes =>
    subst passes
    have head := mirrored.head
    cases step with
    | enters ticks panics =>
      rw [← head] at ticks panics
      exact ⟨_, .enters ticks panics, .panicked (underway.enters ticks panics)⟩
    | breaks ticks breaks =>
      rw [← head] at ticks breaks
      exact ⟨_, .breaks ticks breaks, .stopped mirrored underway (underway.stops breaks)⟩
    | handles ticks entered before raised panics =>
      obtain ⟨w, raised, -⟩ := mirrored.raised mirrors underway entered before raised
      rw [← head] at ticks entered
      obtain ⟨event, handled, -⟩ := underway.goes ticks entered (user _ _ _ _ raised)
      cases panics.symm.trans handled
    | settles ticks entered before raised handled panics =>
      obtain ⟨w, raised, -⟩ := mirrored.raised mirrors underway entered before raised
      rw [← head] at ticks entered
      obtain ⟨event, handled', -, counts⟩ := underway.goes ticks entered (user _ _ _ _ raised)
      cases handled.symm.trans handled'
      exact ⟨_, .settles ticks entered raised handled panics, .panicked (counts _ panics)⟩
    | turns ticks entered before raised handled settled behind =>
      obtain ⟨w, raised, words⟩ := mirrored.raised mirrors underway entered before raised
      rw [← head] at ticks entered
      refine ⟨_, .turns ticks entered raised handled settled, .going ⟨rfl, fun j => (behind j).trans (words j)⟩
        (underway.next_turn ticks entered (user _ _ _ _ raised) handled settled) ?_⟩
      rw [List.length_append, List.length_singleton]

/-! ### Whole runs -/

theorem Hosts.alongside (hosts : Hosts p b) (elsewhere : Machine Memory) (memory : Memory) :
    ∃ first, b.start = .ok first ∧ Underway p elsewhere b (fun _ => memory) [] ⟨⟨first, b.base⟩, fun _ => memory⟩ ∧
      Alongside p elsewhere b (fun _ => memory) 0 (.going ⟨⟨first, b.base⟩, memory⟩)
        (.going ⟨⟨first, b.base⟩, fun _ => memory⟩) := by
  obtain ⟨first, started, underway⟩ := hosts.starts elsewhere fun _ => memory
  exact ⟨first, started, underway, .going ⟨rfl, fun _ => rfl⟩ underway rfl⟩

/-- Where a batch over the one memory can get to has a counterpart among the
batches over memories of their own. -/
theorem Hosts.accompanied (hosts : Hosts p b) (elsewhere : Machine Memory) (memory : Memory) :
    ∃ first, b.start = .ok first ∧ ∀ passes status, Steps (b.SharedGoes (p.machine elsewhere) FromUser)
      (.going ⟨⟨first, b.base⟩, memory⟩) passes status →
      ∃ apart, Alongside p elsewhere b (fun _ => memory) passes status apart := by
  obtain ⟨first, started, -, alongside⟩ := hosts.alongside elsewhere memory
  refine ⟨first, started, fun passes status steps => ?_⟩
  induction steps with
  | refl => exact ⟨_, alongside⟩
  | tail _ step ih =>
    obtain ⟨apart, alongside⟩ := ih
    obtain ⟨apart', -, next⟩ := alongside.follows mirrors_fromUser (fun _ _ _ _ raised => raised) step
    exact ⟨apart', next⟩

/-- Two tasks under MLFQ, one that yields and one that faults. -/
def hosted : Batch where
  profile := .dev
  policy := .mlfq
  specs := [Spec.new 2 5000, ⟨1, 0, true⟩]
  nonempty := by simp
  fits := by decide
  image := ⟨0x80300000, 0x80340000, uncompressed.addr 0, uncompressed.addr listing.code.length,
    uncompressed.at_ .sched_entry, uncompressed.at_ .sched_fault⟩
  sstatus := 0
  mailbox := ⟨0, ZERO_FRAME, .syscall, 0⟩
  base := 0

theorem hosted_hosts : Hosts uncompressed hosted where
  linked := ⟨rfl, rfl, rfl, rfl, by decide +kernel⟩
  runnable := by
    change ∀ spec ∈ [Spec.new 2 5000, ⟨1, 0, true⟩], Runnable spec
    decide
  room := Nat.zero_le _

/-- The handler takes such a trap. -/
theorem Mirrored.handles (mirrored : Mirrored b s m) (underway : Underway p elsewhere b memories turns m)
    (ticks : r.Ticks s.head.clock time) (entered : b.enter r s.head.loop = .ok (some (i, e)))
    (before : b.Spares s.memory memory)
    (raised : GettingOn (p.machine elsewhere) (.load (e.slots i) memory) v raw) :
    ∃ event, handle b.image time e.exchange.expected (b.image.framePtr i) raw = .ok event := by
  obtain ⟨w, mirror, -⟩ := mirrored.raised mirrors_gettingOn underway entered before raised
  rw [← mirrored.head] at ticks entered
  obtain ⟨event, handled, -⟩ := underway.goes ticks entered mirror.toFromUser
  exact ⟨event, handled⟩

/-- The clock may stand still. -/
theorem Mirrored.still (mirrored : Mirrored b s m) (underway : Underway p elsewhere b memories turns m) :
    ∃ r : Readings, ∃ time, r.Ticks s.head.clock time := by
  have ticks := underway.still
  rw [mirrored.head] at ticks
  exact ⟨_, _, ticks⟩

theorem Alongside.goes (alongside : Alongside p elsewhere b memories n together apart)
    (step : b.Goes (fun _ => p.machine elsewhere) GettingOn apart apart') :
    ∃ together', b.SharedGoes (p.machine elsewhere) GettingOn together together' := by
  cases alongside with
  | stopped | panicked => cases step
  | @going s m _ _ mirrored underway =>
    obtain ⟨r, time, ticks⟩ := mirrored.still underway
    rcases entered : b.enter r s.head.loop with cause | _ | ⟨i, e⟩
    · exact ⟨_, .enters ticks entered⟩
    · exact ⟨_, .breaks ticks entered⟩
    · have same : b.Spares s.memory s.memory := fun _ => rfl
      obtain ⟨v, raw, raised⟩ := getting_on_exists (p.machine elsewhere) (.load (e.slots i) s.memory)
      obtain ⟨event, handled⟩ := mirrored.handles underway ticks entered same raised
      cases settled : b.settle r i (e.trapped i event) with
      | error cause => exact ⟨_, .settles ticks entered same raised handled settled⟩
      | ok next => exact ⟨_, .turns ticks entered same raised handled settled fun _ => rfl⟩

/-- A batch over the one memory that has stopped: every task is Done, those of
the program proper have been through their loops as often as their specs say,
each over a memory that has its word, and the report can only miss a demotion. -/
structure SharedServed (p : Placement) (elsewhere : Machine Memory) (b : Batch) (memory : Memory) (s : Shared) : Prop where
  done : ∀ i, (s.head.loop.tasks i).state = .done
  rounds : ∀ j : Fin b.specs.length, (b.specs.get j).fault = false → ∃ pcs own,
    load own (b.word j) = load s.memory (b.word j) ∧
    Run (Proceeds (p.machine elsewhere) supervisor) (.load (b.firstFrame j) memory) pcs
      (.load (s.head.loop.tasks (b.task j)).frame own) ∧
    pcs.count (p.at_ .sched_loop) = (b.specs.get j).iterations
  report : ∀ cause, b.report s.head.loop = .error cause → cause = .escaped

/-- Where a batch over the one memory ends: with its tasks served, or at a
counter of the report that is too short for its turns. -/
def SharedEnded (p : Placement) (elsewhere : Machine Memory) (b : Batch) (memory : Memory) : Status Shared → Prop
  | .going _ => False
  | .stopped s => SharedServed p elsewhere b memory s
  | .panicked cause => Overflow b (work b.specs) cause

/-- The way of a batch to its end, with room on the clock for one more. -/
theorem Hosts.ends (hosts : Hosts p b) (elsewhere : Machine Memory) (memory : Memory) :
    ∃ first, b.start = .ok first ∧ Inevitably (b.SharedGoes (p.machine elsewhere) GettingOn)
      (fun status => SharedEnded p elsewhere b memory status ∧
        ∀ s, status = .stopped s → s.head.clock ≤ usizeMax - 20 * T)
      (.going ⟨⟨first, b.base⟩, memory⟩) := by
  obtain ⟨first, started, underway, alongside⟩ := hosts.alongside elsewhere memory
  refine ⟨first, started, .simulated (fun together apart => ∃ n, Alongside p elsewhere b (fun _ => memory) n together apart)
    ?_ ?_ ?_ underway.comes_to_end ⟨0, alongside⟩⟩
  · rintro together apart together' ⟨n, alongside⟩ step
    obtain ⟨apart', goes, next⟩ := alongside.follows mirrors_gettingOn (fun _ _ _ _ raised => raised.toFromUser) step
    exact ⟨apart', goes, n + 1, next⟩
  · rintro together apart apart' ⟨n, alongside⟩ step
    exact alongside.goes step
  · rintro together apart ⟨n, alongside⟩ ended
    cases alongside with
    | going => exact ended.elim
    | panicked => exact ⟨ended, by simp⟩
    | @stopped s m _ _ mirrored underway _ =>
      have served : Served p elsewhere b (fun _ => memory) m := ended
      obtain ⟨head, words⟩ := mirrored
      refine ⟨⟨head ▸ served.done, fun j sound => ?_, head ▸ served.report⟩, fun s same => ?_⟩
      · obtain ⟨pcs, run, count⟩ := served.rounds j sound
        rw [head] at run
        exact ⟨pcs, _, (words j).symm, run, count⟩
      · cases same
        exact head ▸ underway.clock

end Neonos.UserScheduler
