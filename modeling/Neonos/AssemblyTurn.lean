import Neonos.RunTask
import Neonos.SharedMemory

/-! A batch with the assembly in it. The scheduler's model says of a turn that
user code starts from its frame and that its trap stores a frame. `run_task` and
`user_trap_entry` do just that and give the caller its registers back, so a
batch through the assembly is a batch of the model. -/
namespace Neonos.Assembly
open Rv64 Rv64.Reg ByteMemory Runs Scheduler

/-! ### Passes through the assembly -/

/-- The user's side of a hart, behind `sret` or at a trap: `sepc` is its program counter. -/
def user (c : Cpu) : User Memory := ⟨c.get, c.get_zero, c.csr .sepc, c.mem⟩

/-- `run_task`, called with the address of a frame, and user code from its
`sret` to its trap. The CSRs of the supervisor are out of its reach. -/
structure Ran (addr : Label → Word) (machine : Machine Memory)
    (raises : Machine Memory → User Memory → User Memory → TrapFrame → Prop) (frame_ptr : Word) (frame : TrapFrame)
    (k u t : Cpu) : Prop where
  argument : k.get a0 = frame_ptr
  frame : frameAt k.mem frame_ptr = frame
  enters : Flows addr program (program .run_task) k u .sret
  raised : raises machine (user u) (user t) (state t)
  scratch : t.csr .sscratch = u.csr .sscratch
  vector : t.csr .stvec = u.csr .stvec

/-- From the trap to the call of the handler, by the vector. -/
def Calls (addr : Label → Word) (t called : Cpu) (rest : List (Instr Label)) : Prop :=
  ∃ entry, t.csr .stvec = addr entry ∧
    Flows addr program (program entry) t called (.call .rust_user_trap_handler rest)

/-- The handler, a C function that answers 1 and spares the words of kernel and
tasks, and the way from there to the `ret` of `run_task`. -/
def ComesBack (addr : Label → Word) (b : Batch) (called : Cpu) (rest : List (Instr Label)) (s' : Cpu) : Prop :=
  ∃ answered, CAbi called answered ∧ answered.get a0 = 1 ∧ SameWords addr called.mem answered.mem ∧
    b.Spares called.mem answered.mem ∧ Flows addr program rest answered s' .ret

/-- One pass of the loop with `run_task` in it. It is lost when `run_task` does
not return like a C function that answers 1. -/
inductive Goes (addr : Label → Word) (b : Batch) (machine : Machine Memory)
    (raises : Machine Memory → User Memory → User Memory → TrapFrame → Prop) :
    Option (Status Shared) → Option (Status Shared) → Prop
  | enters (ticks : r.Ticks s.head.clock time) (panics : b.enter r s.head.loop = .error cause) :
      Goes addr b machine raises (some (.going s)) (some (.panicked cause))
  | breaks (ticks : r.Ticks s.head.clock time) (breaks : b.enter r s.head.loop = .ok none) :
      Goes addr b machine raises (some (.going s)) (some (.stopped s))
  | handles (ticks : r.Ticks s.head.clock time) (entered : b.enter r s.head.loop = .ok (some (i, e)))
      (before : b.Spares s.memory k.mem) (ran : Ran addr machine raises (b.image.framePtr i) (e.slots i) k u t)
      (calls : Calls addr t called rest)
      (panics : handle b.image time e.exchange.expected (called.get a0) (frameAt called.mem (called.get a0)) = .error cause) :
      Goes addr b machine raises (some (.going s)) (some (.panicked cause))
  | lost (ticks : r.Ticks s.head.clock time) (entered : b.enter r s.head.loop = .ok (some (i, e)))
      (before : b.Spares s.memory k.mem) (ran : Ran addr machine raises (b.image.framePtr i) (e.slots i) k u t)
      (calls : Calls addr t called rest) (back : ComesBack addr b called rest s') (lost : ¬ Returned addr k s') :
      Goes addr b machine raises (some (.going s)) none
  | settles (ticks : r.Ticks s.head.clock time) (entered : b.enter r s.head.loop = .ok (some (i, e)))
      (before : b.Spares s.memory k.mem) (ran : Ran addr machine raises (b.image.framePtr i) (e.slots i) k u t)
      (calls : Calls addr t called rest)
      (handled : handle b.image time e.exchange.expected (called.get a0) (frameAt called.mem (called.get a0)) = .ok event)
      (back : ComesBack addr b called rest s') (panics : b.settle r i (e.trapped i event) = .error cause) :
      Goes addr b machine raises (some (.going s)) (some (.panicked cause))
  | turns (ticks : r.Ticks s.head.clock time) (entered : b.enter r s.head.loop = .ok (some (i, e)))
      (before : b.Spares s.memory k.mem) (ran : Ran addr machine raises (b.image.framePtr i) (e.slots i) k u t)
      (calls : Calls addr t called rest)
      (handled : handle b.image time e.exchange.expected (called.get a0) (frameAt called.mem (called.get a0)) = .ok event)
      (back : ComesBack addr b called rest s') (settled : b.settle r i (e.trapped i event) = .ok next)
      (behind : b.Spares s'.mem m') :
      Goes addr b machine raises (some (.going s)) (some (.going ⟨⟨next, r.requeued⟩, m'⟩))

/-! ### What lies where -/

variable {addr : Label → Word} {b : Batch} {machine : Machine Memory}
  {raises : Machine Memory → User Memory → User Memory → TrapFrame → Prop}
  {k u t called s' : Cpu} {a top frame_ptr : Word} {i : TaskId} {frame : TrapFrame} {rest : List (Instr Label)}

/-- A doubleword apart from the kernel's three saved objects. -/
structure Off (addr : Label → Word) (a : Word) : Prop where
  context : ∀ l < 16, Apart (slot (addr .kernel_context) l) a
  gp : Apart (addr .kernel_gp_saved) a
  tp : Apart (addr .kernel_tp_saved) a

/-- The linker has laid the kernel's saved objects apart from each other and
from the stacks of the tasks. -/
structure Hosting (addr : Label → Word) (b : Batch) : Prop where
  linked : Linked addr
  clear : ∀ i, Clear addr (b.image.stackTop i false)
  words : ∀ j, Off addr (b.word j)

theorem Clear.off (clear : Clear addr top) (inside : n < 36) : Off addr (slot (below top) n) :=
  ⟨fun l within => ((clear.context l within).apart inside).symm, (clear.abi.1.apart inside).symm,
    (clear.abi.2.apart inside).symm⟩

/-- No trap stack reaches into the word of a task. -/
theorem word_outside (b : Batch) (i : TaskId) (j : Fin b.specs.length) :
    Outside (below (b.image.stackTop i false)) 36 (b.word j) := by
  have first : (b.task j).val < 4 := (b.task j).isLt
  have second : i.val < 4 := i.isLt
  unfold Outside Batch.word Image.stackTop below
  rw [if_pos rfl, if_neg Bool.false_ne_true]
  generalize (b.task j).val = x at *
  generalize i.val = y at *
  unfold STACK N TRAP_FRAME_SIZE
  constructor <;> bv_omega

/-! ### Going to user code -/

theorem saveContext_keeps (off : Off addr a) (k : Cpu) : load (line addr saveContext k).mem a = load k.mem a := by
  rw [saveContext_split, line_append, line_append]
  obtain ⟨mem₁, -⟩ := line_saveAt addr .kernel_context fullContext
    (fun save member => (fullContext_own save member).1) k (fun l => k.get (contextReg l))
    (fun save member => by rw [(fullContext_own save member).2.1])
  generalize line addr ([.la t0 .kernel_context] ++ saves t0 fullContext) k = u₁ at *
  obtain ⟨mem₂, -⟩ := line_saveOne addr .kernel_gp_saved gp (by decide) u₁
  generalize line addr ([.la t0 .kernel_gp_saved] ++ saves t0 [(gp, 0)]) u₁ = u₂ at *
  obtain ⟨mem₃, -⟩ := line_saveOne addr .kernel_tp_saved tp (by decide) u₂
  have inside : ∀ l ∈ fullContext.map Prod.snd, l < 16 := by decide
  rw [mem₃, load_store_apart off.tp, mem₂, load_store_apart off.gp, mem₁]
  exact load_storeSlots_apart fun l member => off.context l (inside l member)

/-- What `sret` resumes is the frame. -/
theorem Resumes.user (resumes : Resumes addr k u) : user u = .load (frameAt k.mem (k.get sp)) u.mem := by
  have regs : u.get = Function.update (frameAt k.mem (k.get sp)).x 0 0 := by
    funext q
    by_cases hardwired : q = 0
    · subst hardwired
      rw [Cpu.get_zero, Function.update_self]
    · rw [Function.update_of_ne hardwired]
      exact resumes.regs q hardwired
  unfold Assembly.user User.load
  congr 1
  exact resumes.sepc

/-- User code starts from the frame that `run_task` is given, and finds memory
as it was but for what the kernel saves. -/
theorem Ran.starts (hosting : Hosting addr b) (ran : Ran addr machine raises (b.image.framePtr i) frame k u t) :
    user u = .load frame u.mem ∧ Entered addr (b.image.stackTop i false) k u ∧ b.Spares k.mem u.mem := by
  obtain ⟨u', flows, resumes, entered⟩ := run_task_enters hosting.linked k
  obtain ⟨rfl, -⟩ := ran.enters.once flows
  have pointer : k.get a0 = below (b.image.stackTop i false) := ran.argument
  have kept {a : Word} (off : Off addr a) : load u.mem a = load k.mem a := by
    rw [resumes.mem, Cpu.set_mem]
    exact saveContext_keeps off k
  have unsaved : frameAt (line addr saveContext k).mem (below (b.image.stackTop i false)) = frame :=
    (frameAt_eq fun n inside => saveContext_keeps ((hosting.clear i).off inside) k).trans ran.frame
  have resumed := resumes.user
  rw [Cpu.set_mem, Cpu.get_set _ _ (by decide), if_pos rfl, pointer, unsaved] at resumed
  rw [pointer, below_add_size] at entered
  exact ⟨resumed, entered, fun j => kept (hosting.words j)⟩

theorem Ran.armed (ran : Ran addr machine raises frame_ptr frame k u t) (entered : Entered addr top k u) :
    Armed addr top t :=
  ⟨ran.scratch.trans entered.armed.scratch, ran.vector.trans entered.armed.vector⟩

/-! ### The trap and the way back -/

/-- The handler finds the trap's frame where the scheduler expects it. -/
theorem Calls.finds (hosting : Hosting addr b) (armed : Armed addr (b.image.stackTop i false) t)
    (calls : Calls addr t called rest) :
    CallsHandler addr t called ∧ rest = afterHandler ∧ called.get a0 = b.image.framePtr i ∧
      frameAt called.mem (called.get a0) = state t ∧ b.Spares t.mem called.mem := by
  obtain ⟨entry, goes, flows⟩ := calls
  obtain rfl : Label.user_trap_entry = entry := hosting.linked.labels (armed.vector.symm.trans goes)
  have clear := (hosting.clear i).abi
  obtain ⟨called', handler, flows'⟩ := user_trap_entry_calls t (armed.scratch ▸ clear.1) (armed.scratch ▸ clear.2)
  obtain ⟨rfl, code⟩ := flows.once flows'
  obtain ⟨⟨-, within, -⟩, -⟩ := orders_whole
  have argument : called.get a0 = below (b.image.stackTop i false) := armed.scratch ▸ handler.argument
  refine ⟨handler, (Exit.call.inj code).2, argument, ?_, fun j => ?_⟩
  · rw [argument, ← armed.scratch]
    exact handler.frame
  · rw [handler.mem, armed.scratch]
    exact load_storeSlots_outside (word_outside b i j) within

theorem ComesBack.spares (back : ComesBack addr b called afterHandler s') : b.Spares called.mem s'.mem := by
  obtain ⟨answered, -, answer, -, words, returns⟩ := back
  obtain ⟨r, terminates, flows⟩ := afterHandler_terminates addr answered answer
  obtain ⟨rfl, -⟩ := returns.once flows
  rw [terminates.mem, Cpu.set_mem]
  exact words

/-- Where the kernel's words are still what they were, the caller has its registers back. -/
theorem ComesBack.returned (clear : Clear addr top) (armed : Armed addr top t) (calls : CallsHandler addr t called)
    (back : ComesBack addr b called afterHandler s') (saved : Saved addr k t.mem) : Returned addr k s' := by
  obtain ⟨answered, abi, answer, kernel, -, returns⟩ := back
  obtain ⟨r, terminates, flows⟩ := afterHandler_terminates addr answered answer
  obtain ⟨rfl, -⟩ := returns.once flows
  obtain ⟨⟨-, within, -⟩, -⟩ := orders_whole
  have crossed : Crossed addr top ⟨t, t, called, answered, s'⟩ (.back, s') :=
    ⟨armed, calls, abi, .inr ⟨answer, terminates, rfl⟩⟩
  have frame : SameWords addr t.mem called.mem := by
    rw [calls.mem, armed.scratch]
    exact SameWords.frame clear t.mem _ within
  exact crossed.returned ((saved.same frame).same kernel)

/-! ### The batch -/

/-- A pass through the assembly is a pass of the model. -/
theorem Goes.shared (hosting : Hosting addr b) (step : Goes addr b machine raises (some status) (some status')) :
    b.SharedGoes machine raises status status' := by
  cases step with
  | enters ticks panics => exact .enters ticks panics
  | breaks ticks breaks => exact .breaks ticks breaks
  | handles ticks entered before ran calls panics =>
    obtain ⟨start, enters, kept⟩ := ran.starts hosting
    obtain ⟨-, -, argument, frame, -⟩ := calls.finds hosting (ran.armed enters)
    rw [frame, argument] at panics
    exact .handles ticks entered (fun j => (kept j).trans (before j)) (start ▸ ran.raised) panics
  | settles ticks entered before ran calls handled back panics =>
    obtain ⟨start, enters, kept⟩ := ran.starts hosting
    obtain ⟨-, -, argument, frame, -⟩ := calls.finds hosting (ran.armed enters)
    rw [frame, argument] at handled
    exact .settles ticks entered (fun j => (kept j).trans (before j)) (start ▸ ran.raised) handled panics
  | turns ticks entered before ran calls handled back settled behind =>
    obtain ⟨start, enters, kept⟩ := ran.starts hosting
    obtain ⟨-, rfl, argument, frame, stored⟩ := calls.finds hosting (ran.armed enters)
    rw [frame, argument] at handled
    exact .turns (v := user _) ticks entered (fun j => (kept j).trans (before j)) (start ▸ ran.raised) handled settled
      fun j => (behind j).trans ((back.spares j).trans (stored j))

/-! ### A pass that goes on -/

/-- A frame can be put where it belongs. -/
theorem frame_placed (m : Memory) (base : Word) (frame : TrapFrame) :
    ∃ m', frameAt m' base = frame ∧ ∀ a, Outside base 36 a → load m' a = load m a := by
  let value (n : Nat) : Word :=
    if inside : n < 32 then frame.x ⟨n, inside⟩
    else if n = 32 then frame.sstatus else if n = 33 then frame.sepc else if n = 34 then frame.scause else frame.stval
  have within : ∀ n ∈ List.range 36, n < 36 := fun n member => List.mem_range.mp member
  have held (n : Nat) (inside : n < 36) : load (storeSlots m base value (List.range 36)) (slot base n) = value n :=
    load_storeSlots (by decide) within List.nodup_range (List.mem_range.mpr inside)
  have regs : (fun q : Fin 32 => value q) = frame.x := funext fun q => dif_pos q.isLt
  refine ⟨storeSlots m base value (List.range 36), ?_, fun a outside => load_storeSlots_outside outside within⟩
  rw [frameAt_eq held, regs]
  rfl

/-- The hardware can take every trap that the model knows. -/
theorem trap_taken (u : Cpu) (trapped : Trapped machine (user u) v raw) :
    ∃ t, user t = v ∧ state t = raw ∧ t.csr .sscratch = u.csr .sscratch ∧ t.csr .stvec = u.csr .stvec := by
  have saved : raw = v.save raw.sstatus raw.scause raw.stval := by
    cases trapped with
    | exception | timer => rfl
  let csr : Csr → Word
    | .sstatus => raw.sstatus
    | .sepc => v.pc
    | .scause => raw.scause
    | .stval => raw.stval
    | .sscratch => u.csr .sscratch
    | .stvec => u.csr .stvec
  have regs : (⟨v.x, csr, v.stack⟩ : Cpu).get = v.x := by
    funext q
    by_cases hardwired : q = 0
    · rw [hardwired, Cpu.get_zero, v.zero]
    · exact if_neg hardwired
  refine ⟨⟨v.x, csr, v.stack⟩, ?_, ?_, rfl, rfl⟩
  · cases v
    unfold Assembly.user
    congr 1
  · rw [saved]
    unfold state User.save
    congr 1

/-- `run_task` gets to user code wherever the kernel has put the frame. -/
theorem ran_exists (hosting : Hosting addr b) (m : Memory) (frame : TrapFrame)
    (exists_ : ∀ u : User Memory, ∃ v raw, raises machine u v raw)
    (trapped : ∀ u v raw, raises machine u v raw → Trapped machine u v raw) :
    ∃ k u t called rest s', b.Spares m k.mem ∧ Ran addr machine raises (b.image.framePtr i) frame k u t ∧
      Calls addr t called rest ∧ ComesBack addr b called rest s' := by
  obtain ⟨m', placed, kept⟩ := frame_placed m (b.image.framePtr i) frame
  let k : Cpu := ⟨Function.update (fun _ => (0 : Word)) a0 (b.image.framePtr i), fun _ => 0, m'⟩
  have argument : k.get a0 = b.image.framePtr i := by
    change (if a0 = 0 then 0 else Function.update (fun _ => (0 : Word)) a0 (b.image.framePtr i) a0) = _
    rw [if_neg (by decide), Function.update_self]
  obtain ⟨u, enters, -, entered⟩ := run_task_enters hosting.linked k
  obtain ⟨v, raw, raised⟩ := exists_ (user u)
  obtain ⟨t, rfl, rfl, scratch, vector⟩ := trap_taken u (trapped _ _ _ raised)
  have ran : Ran addr machine raises (b.image.framePtr i) frame k u t :=
    ⟨argument, placed, enters, raised, scratch, vector⟩
  have armed := ran.armed (ran.starts hosting).2.1
  have clear := (hosting.clear i).abi
  obtain ⟨called, -, saves⟩ := user_trap_entry_calls t (armed.scratch ▸ clear.1) (armed.scratch ▸ clear.2)
  have answer : (called.set a0 1).get a0 = 1 := by
    rw [Cpu.get_set _ _ (by decide), if_pos rfl]
  have same : (called.set a0 1).mem = called.mem := Cpu.set_mem called a0 1
  obtain ⟨s', -, returns⟩ := afterHandler_terminates addr (called.set a0 1) answer
  refine ⟨k, u, t, called, afterHandler, s', fun j => kept _ (word_outside b i j), ran, ⟨_, armed.vector, saves⟩,
    called.set a0 1, .answer called 1, answer, ?_, ?_, returns⟩
  · rw [same]
    exact ⟨fun _ _ => rfl, rfl, rfl⟩
  · rw [same]
    exact fun _ => rfl

end Neonos.Assembly

namespace Neonos.UserScheduler
open Rv64 Rv64.Reg ByteMemory Runs Scheduler Assembly

variable {p : Placement} {elsewhere : Machine Memory} {b : Batch} {addr : Assembly.Label → Word}
  {memories : TaskId → Memory}

/-- The user program stores to its own word only, so `run_task` returns. -/
theorem Alongside.returns {raises : Machine Memory → User Memory → User Memory → TrapFrame → Prop}
    (hosting : Hosting addr b) (user : ∀ machine u v raw, raises machine u v raw → FromUser machine u v raw)
    (alongside : Alongside p elsewhere b memories n together apart)
    (step : Goes addr b (p.machine elsewhere) raises (some together) next) : ∃ together', next = some together' := by
  cases step with
  | enters | breaks | handles | settles | turns => exact ⟨_, rfl⟩
  | lost ticks entered before ran calls back lost =>
    exfalso
    obtain ⟨start, enters, kept⟩ := ran.starts hosting
    obtain ⟨handler, rfl, -⟩ := calls.finds hosting (ran.armed enters)
    refine lost (back.returned (hosting.clear _) (ran.armed enters) handler (enters.saved.same ?_))
    cases alongside with
    | going mirrored underway =>
      have raised := user _ _ _ _ ran.raised
      rw [start] at raised
      obtain ⟨j, -, -, -, -, keeps, pointer⟩ :=
        mirrored.pass mirrors_fromUser underway entered (fun j => (kept j).trans (before j)) raised
      have off := hosting.words j
      rw [← pointer] at off
      exact ⟨fun l inside => keeps.frame _ (off.context l inside).symm, keeps.frame _ off.gp.symm,
        keeps.frame _ off.tp.symm⟩

/-- Where the model goes on, so does the assembly. -/
theorem Alongside.assembles (hosting : Hosting addr b) (alongside : Alongside p elsewhere b memories n together apart)
    (step : b.SharedGoes (p.machine elsewhere) GettingOn together together') :
    ∃ next, Goes addr b (p.machine elsewhere) GettingOn (some together) next := by
  cases alongside with
  | stopped | panicked => cases step
  | @going s m _ _ mirrored underway =>
    obtain ⟨r, time, ticks⟩ := mirrored.still underway
    rcases entered : b.enter r s.head.loop with cause | _ | ⟨i, e⟩
    · exact ⟨_, .enters ticks entered⟩
    · exact ⟨_, .breaks ticks entered⟩
    · obtain ⟨k, u, t, called, rest, s', before, ran, calls, back⟩ := ran_exists (i := i) hosting s.memory (e.slots i)
        (getting_on_exists (p.machine elsewhere)) fun _ _ _ raised => raised.trapped
      obtain ⟨start, enters, kept⟩ := ran.starts hosting
      obtain ⟨-, rfl, argument, frame, -⟩ := calls.finds hosting (ran.armed enters)
      have raised := ran.raised
      rw [start] at raised
      obtain ⟨event, handled⟩ := mirrored.handles underway ticks entered (fun j => (kept j).trans (before j)) raised
      rw [← argument, ← frame] at handled
      cases settled : b.settle r i (e.trapped i event) with
      | error cause => exact ⟨_, .settles ticks entered before ran calls handled back settled⟩
      | ok next => exact ⟨_, .turns ticks entered before ran calls handled back settled fun _ => rfl⟩

/-- The layout of the labels with the kernel's objects behind the tasks' stacks. -/
def behindStacks : Assembly.Label → Word
  | .kernel_context => 0x80400000
  | .kernel_gp_saved => 0x80400080
  | .kernel_tp_saved => 0x80400088
  | l => layout l

theorem hosted_hosting : Hosting behindStacks hosted := by
  refine ⟨⟨?_, by decide, by decide, by decide⟩, ?_, ?_⟩
  · intro first second same
    cases first <;> cases second <;> first | rfl | exact absurd same (by decide)
  · have clear : ∀ i : TaskId, (Outside (below (hosted.image.stackTop i false)) 36 (behindStacks .kernel_gp_saved) ∧
        Outside (below (hosted.image.stackTop i false)) 36 (behindStacks .kernel_tp_saved)) ∧
        ∀ l < 16, Outside (below (hosted.image.stackTop i false)) 36 (slot (behindStacks .kernel_context) l) := by
      decide
    exact fun i => ⟨(clear i).1, (clear i).2⟩
  · have off : ∀ j : Fin hosted.specs.length, (∀ l < 16, Apart (slot (behindStacks .kernel_context) l) (hosted.word j)) ∧
        Apart (behindStacks .kernel_gp_saved) (hosted.word j) ∧ Apart (behindStacks .kernel_tp_saved) (hosted.word j) := by
      decide
    exact fun j => ⟨(off j).1, (off j).2.1, (off j).2.2⟩

end Neonos.UserScheduler
