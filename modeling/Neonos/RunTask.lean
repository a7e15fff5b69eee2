import Neonos.BatchSteps
import Neonos.TrapRoundTrip

/-! `run_user` and `run_task` as their Rust caller sees them: however many traps
user code takes and whatever it does to its registers, the call returns like
any other, and every trap of it finds its frame in the same place. -/
namespace Neonos.Assembly
open Rv64 Rv64.Reg ByteMemory Runs

variable {addr : Label → Word} {s k u : Cpu} {top : Word}

/-- The whole kernel context, each register with its slot. -/
def fullContext : List (Reg × Nat) :=
  [(ra, 0), (sp, 1), (gp, 2), (tp, 3), (s0, 4), (s1, 5), (s2, 6), (s3, 7), (s4, 8), (s5, 9),
    (s6, 10), (s7, 11), (s8, 12), (s9, 13), (s10, 14), (s11, 15)]

/-- Distinct labels lie apart, and so do the kernel's three saved objects. -/
structure Linked (addr : Label → Word) : Prop where
  labels : Function.Injective addr
  gp : Outside (addr .kernel_context) 16 (addr .kernel_gp_saved)
  tp : Outside (addr .kernel_context) 16 (addr .kernel_tp_saved)
  apart : Apart (addr .kernel_gp_saved) (addr .kernel_tp_saved)

/-- The trap stack at `top` keeps clear of everything the kernel has saved. -/
structure Clear (addr : Label → Word) (top : Word) : Prop where
  abi : ClearOfAbi addr top
  context : ∀ l < 16, Outside (below top) 36 (slot (addr .kernel_context) l)

/-- Memory holds the caller's context, and `gp` and `tp` once more. -/
structure Saved (addr : Label → Word) (k : Cpu) (m : Memory) : Prop where
  context : ∀ fill ∈ fullContext, load m (slot (addr .kernel_context) fill.2) = k.get fill.1
  gp : load m (addr .kernel_gp_saved) = k.get gp
  tp : load m (addr .kernel_tp_saved) = k.get tp

/-- The kernel's saved words are the same in both memories. -/
structure SameWords (addr : Label → Word) (m m' : Memory) : Prop where
  context : ∀ l < 16, load m' (slot (addr .kernel_context) l) = load m (slot (addr .kernel_context) l)
  gp : load m' (addr .kernel_gp_saved) = load m (addr .kernel_gp_saved)
  tp : load m' (addr .kernel_tp_saved) = load m (addr .kernel_tp_saved)

/-- Neither user code nor the handler writes what the kernel has saved. -/
def Crossing.Spares (addr : Label → Word) (c : Crossing) : Prop :=
  SameWords addr c.before.mem c.interrupted.mem ∧ SameWords addr c.called.mem c.answered.mem

theorem Saved.same (saved : Saved addr k m) (same : SameWords addr m m') : Saved addr k m' := by
  have inside : ∀ fill ∈ fullContext, fill.2 < 16 := by decide
  refine ⟨fun fill member => ?_, same.gp.trans saved.gp, same.tp.trans saved.tp⟩
  exact (same.context fill.2 (inside fill member)).trans (saved.context fill member)

/-- Filling a trap frame touches none of them. -/
theorem SameWords.frame (clear : Clear addr top) (m : Memory) (value : Nat → Word)
    (within : ∀ l ∈ order, l < 36) : SameWords addr m (storeSlots m (below top) value order) :=
  ⟨fun l inside => load_storeSlots_outside (clear.context l inside) within,
    load_storeSlots_outside clear.abi.1 within, load_storeSlots_outside clear.abi.2 within⟩

/-! ### Saving the caller's context -/

theorem saveContext_split : saveContext =
    ([.la t0 .kernel_context] ++ saves t0 fullContext) ++
      (([.la t0 .kernel_gp_saved] ++ saves t0 [(gp, 0)]) ++
        ([.la t0 .kernel_tp_saved] ++ saves t0 [(tp, 0)])) := rfl

/-- The register that slot `l` of the kernel context is for. -/
def contextReg (l : Nat) : Reg :=
  [ra, sp, gp, tp, s0, s1, s2, s3, s4, s5, s6, s7, s8, s9, s10, s11].getD l 0

theorem fullContext_own : ∀ save ∈ fullContext,
    save.1 ≠ t0 ∧ contextReg save.2 = save.1 ∧ save.2 < 16 ∧ save.2 ∈ fullContext.map Prod.snd := by
  decide

theorem slot_zero (base : Word) : slot base 0 = base := by
  simp [slot]

/-- Loading an address into `t0` and saving registers from there. -/
theorem line_saveAt (addr : Label → Word) (symbol : Label) (block : List (Reg × Nat)) (notT0 : ∀ save ∈ block, save.1 ≠ t0)
    (s : Cpu) (value : Nat → Word) (values : ∀ save ∈ block, s.get save.1 = value save.2) :
    (line addr ([.la t0 symbol] ++ saves t0 block) s).mem =
        storeSlots s.mem (addr symbol) value (block.map Prod.snd) ∧
      (∀ c, (line addr ([.la t0 symbol] ++ saves t0 block) s).csr c = s.csr c) ∧
      ∀ r, r ≠ t0 → (line addr ([.la t0 symbol] ++ saves t0 block) s).get r = s.get r := by
  rw [line_append]
  have base : (line addr [.la t0 symbol] s).get t0 = addr symbol := by
    rw [line_cons, line_nil, Instr.run, Cpu.get_set _ _ (by decide), if_pos rfl]
  have mem := line_mem addr [.la t0 symbol] s (by simp [Instr.Stores])
  have kept (r : Reg) (other : r ≠ t0) : (line addr [.la t0 symbol] s).get r = s.get r :=
    line_get [.la t0 symbol] s (by simp [Instr.rd]) (by simpa [Instr.rd] using other.symm)
  have csr (c : Csr) : (line addr [.la t0 symbol] s).csr c = s.csr c :=
    line_csr [.la t0 symbol] s (by simp [Instr.csrOut])
  generalize line addr [.la t0 symbol] s = u at *
  obtain ⟨mem', csr', regs'⟩ := line_saves addr t0 block u value
    fun save member => (kept save.1 (notT0 save member)).trans (values save member)
  refine ⟨?_, fun c => ?_, fun r other => ?_⟩
  · rw [mem', base, mem]
  · rw [csr', csr]
  · rw [regs', kept r other]

/-- Saving one register at a label. -/
theorem line_saveOne (addr : Label → Word) (symbol : Label) (r : Reg) (notT0 : r ≠ t0) (s : Cpu) :
    (line addr ([.la t0 symbol] ++ saves t0 [(r, 0)]) s).mem = store s.mem (addr symbol) (s.get r) ∧
      (∀ c, (line addr ([.la t0 symbol] ++ saves t0 [(r, 0)]) s).csr c = s.csr c) ∧
      ∀ q, q ≠ t0 → (line addr ([.la t0 symbol] ++ saves t0 [(r, 0)]) s).get q = s.get q := by
  obtain ⟨mem, csr, regs⟩ := line_saveAt addr symbol [(r, 0)] (by simpa using notT0) s
    (fun _ => s.get r) (by simp)
  refine ⟨?_, csr, regs⟩
  rw [mem]
  simp [storeSlots, slot_zero]

theorem line_saveContext (linked : Linked addr) (k : Cpu) :
    Saved addr k (line addr saveContext k).mem ∧
      (∀ c, (line addr saveContext k).csr c = k.csr c) ∧
      ∀ r, r ≠ t0 → (line addr saveContext k).get r = k.get r := by
  rw [saveContext_split, line_append, line_append]
  obtain ⟨mem₁, csr₁, regs₁⟩ := line_saveAt addr .kernel_context fullContext
    (fun save member => (fullContext_own save member).1) k (fun l => k.get (contextReg l))
    (fun save member => by rw [(fullContext_own save member).2.1])
  generalize line addr ([.la t0 .kernel_context] ++ saves t0 fullContext) k = u₁ at *
  obtain ⟨mem₂, csr₂, regs₂⟩ := line_saveOne addr .kernel_gp_saved gp (by decide) u₁
  generalize line addr ([.la t0 .kernel_gp_saved] ++ saves t0 [(gp, 0)]) u₁ = u₂ at *
  obtain ⟨mem₃, csr₃, regs₃⟩ := line_saveOne addr .kernel_tp_saved tp (by decide) u₂
  generalize line addr ([.la t0 .kernel_tp_saved] ++ saves t0 [(tp, 0)]) u₂ = u₃ at *
  refine ⟨⟨fun fill member => ?_, ?_, ?_⟩, fun c => ?_, fun r other => ?_⟩
  · obtain ⟨-, own, inside, filled⟩ := fullContext_own fill member
    rw [mem₃, load_store_apart (linked.tp.apart inside).symm, mem₂,
      load_store_apart (linked.gp.apart inside).symm, mem₁]
    refine (load_storeSlots (by decide : 8 * 16 ≤ 2 ^ 64) (by decide) (by decide) filled).trans ?_
    rw [own]
  · rw [mem₃, load_store_apart linked.apart.symm, mem₂, load_store_same, regs₁ _ (by decide)]
  · rw [mem₃, load_store_same, regs₂ _ (by decide), regs₁ _ (by decide)]
  · rw [csr₃, csr₂, csr₁]
  · rw [regs₃ r other, regs₂ r other, regs₁ r other]

/-! ### Going to user code -/

/-- User code entered from a call in state `k`: its first trap finds `top`, and
memory holds the caller's context. -/
structure Entered (addr : Label → Word) (top : Word) (k u : Cpu) : Prop where
  armed : Armed addr top u
  saved : Saved addr k u.mem

/-- `run_task` resumes the frame it is given once the context is saved. -/
theorem run_task_enters (linked : Linked addr) (k : Cpu) :
    ∃ u, Flows addr program (program .run_task) k u .sret ∧
      Resumes addr ((line addr saveContext k).set sp (k.get a0)) u ∧
      Entered addr (k.get a0 + BitVec.ofInt 64 tf_size) k u := by
  obtain ⟨saved, -, regs⟩ := line_saveContext linked k
  have code : program .run_task = saveContext ++ [.mv sp a0, .j .restore_user_frame] := rfl
  have argument : (line addr saveContext k).get a0 = k.get a0 := regs a0 (by decide)
  generalize saving : line addr saveContext k = u₁ at *
  obtain ⟨u, resumes, flows⟩ := restore_user_frame_resumes addr (u₁.set sp (k.get a0))
  have stack : (u₁.set sp (k.get a0)).get sp = k.get a0 := by
    rw [Cpu.get_set _ _ (by decide), if_pos rfl]
  have ran : exec addr (program .run_task) k =
      (u₁.set sp (k.get a0), .jump .restore_user_frame) := by
    rw [code, exec_line _ _ (by decide), saving, ← argument]
    rfl
  refine ⟨u, .jump ran flows, resumes, ⟨?_, resumes.vector⟩, ?_⟩
  · rw [resumes.scratch, stack]
  · rw [resumes.mem, Cpu.set_mem]
    exact saved

/-- The supervisor's CSRs for the first `sret`. -/
def userCsrs : List (Instr Label) :=
  [.la t0 .user_trap_entry, .csrw .stvec t0, .csrw .sscratch a3, .csrw .sepc a1, .csrw .sstatus a2]

/-- Nothing of the kernel's registers is left to user code. -/
def userRegs : List (Instr Label) :=
  [.mv t0 a0,
    .mv ra zero, .mv gp zero, .mv tp zero, .mv t1 zero, .mv t2 zero, .mv s0 zero, .mv s1 zero,
    .mv a0 zero, .mv a1 zero, .mv a2 zero, .mv a3 zero, .mv a4 zero, .mv a5 zero, .mv a6 zero,
    .mv a7 zero, .mv s2 zero, .mv s3 zero, .mv s4 zero, .mv s5 zero, .mv s6 zero, .mv s7 zero,
    .mv s8 zero, .mv s9 zero, .mv s10 zero, .mv s11 zero, .mv t3 zero, .mv t4 zero, .mv t5 zero,
    .mv t6 zero, .mv sp t0, .mv t0 zero]

theorem run_user_split :
    program .run_user = (saveContext ++ (userCsrs ++ userRegs)) ++ [.sret] := rfl

theorem line_userCsrs (addr : Label → Word) (s : Cpu) :
    (line addr userCsrs s).csr .stvec = addr .user_trap_entry ∧
      (line addr userCsrs s).csr .sscratch = s.get a3 := by
  constructor
  · simp [userCsrs, Instr.run, Cpu.get_set]
  · simp [userCsrs, Instr.run, Cpu.get_set]

theorem run_user_enters (linked : Linked addr) (k : Cpu) :
    ∃ u, Flows addr program (program .run_user) k u .sret ∧ Entered addr (k.get a3) k u := by
  obtain ⟨saved, -, regs⟩ := line_saveContext linked k
  generalize saving : line addr saveContext k = u₁ at *
  obtain ⟨vector₂, scratch₂⟩ := line_userCsrs addr u₁
  have mem₂ := line_mem addr userCsrs u₁ (by decide)
  generalize csrs : line addr userCsrs u₁ = u₂ at *
  have mem₃ := line_mem addr userRegs u₂ (by decide)
  have csr₃ (c : Csr) : (line addr userRegs u₂).csr c = u₂.csr c :=
    line_csr userRegs u₂ (by simp [userRegs, Instr.csrOut])
  refine ⟨line addr userRegs u₂, .here ?_ (by simp), ⟨?_, ?_⟩, ?_⟩
  · rw [run_user_split, exec_line _ _ (by decide), line_append, saving, line_append, csrs]
    rfl
  · rw [csr₃, scratch₂, regs a3 (by decide)]
  · rw [csr₃, vector₂]
  · rw [mem₃, mem₂]
    exact saved

/-! ### Coming back -/

/-- The state in which a caller that was in state `k` goes on. -/
structure Returned (addr : Label → Word) (k s : Cpu) : Prop where
  caller : s.get ra = k.get ra
  regs : ∀ r ∈ calleeSaved, s.get r = k.get r
  answer : s.get a0 = 1
  scratch : s.csr .sscratch = 0
  vector : s.csr .stvec = addr .trap_entry

theorem calleeSaved_context : ∀ r ∈ calleeSaved, r = sp ∨ ∃ fill ∈ context, fill.1 = r := by
  decide

/-- What the kernel has saved outlives a trap. -/
theorem Crossed.saved (clear : Clear addr top) (crossed : Crossed addr top c s')
    (spares : c.Spares addr) (saved : Saved addr k c.before.mem) : Saved addr k c.answered.mem := by
  obtain ⟨-, within, -⟩ := orders_whole.1
  have frame : SameWords addr c.interrupted.mem c.called.mem := by
    rw [crossed.called.mem, crossed.interrupted.scratch]
    exact SameWords.frame clear c.interrupted.mem _ within
  exact ((saved.same spares.1).same frame).same spares.2

theorem Crossed.returned (crossed : Crossed addr top c (.back, s)) (saved : Saved addr k c.answered.mem) :
    Returned addr k s := by
  rcases crossed.ends with ⟨-, -, same⟩ | ⟨answer, terminates, same⟩
  · cases same
  cases same
  obtain ⟨stack, regs, kept, scratch, vector, -⟩ := terminates
  rw [Cpu.set_mem] at stack regs
  refine ⟨?_, fun r member => ?_, ?_, scratch, ?_⟩
  · exact (regs (ra, 0) (by decide)).trans (saved.context (ra, 0) (by decide))
  · have included : ∀ fill ∈ context, fill ∈ fullContext := by decide
    rcases calleeSaved_context r member with rfl | ⟨fill, inContext, rfl⟩
    · exact stack.trans (saved.context (sp, 1) (by decide))
    · exact (regs fill inContext).trans (saved.context fill (included fill inContext))
  · rw [kept, Cpu.get_set _ _ (by decide), if_neg (by decide), answer]
  · rw [vector, Cpu.set_csr, crossed.abi.vector, crossed.called.vector]

theorem run_saved (linked : Linked addr) (clear : Clear addr top) (entered : Entered addr top k u)
    (run : Run (Crosses addr) (.user, u) crossings (m, s)) (spares : ∀ c ∈ crossings, c.Spares addr) :
    (m = .user → Entered addr top k s) ∧ (m = .back → Returned addr k s) ∧
      ∀ c ∈ crossings, CallsHandler addr c.interrupted c.called ∧ Saved addr k c.interrupted.mem ∧
        c.interrupted.csr .sscratch = top := by
  generalize first : (Mode.user, u) = start at run
  generalize last : (m, s) = final at run
  induction run generalizing m s with
  | nil =>
    obtain ⟨rfl, rfl⟩ := Prod.mk.inj (first.trans last.symm)
    exact ⟨fun _ => entered, nofun, by simp⟩
  | @snoc crossings middle c final run step ih =>
    subst first last
    obtain ⟨user, -, earlier⟩ := ih (fun c member => spares c (by simp [member])) rfl
    obtain ⟨inUser, before⟩ := Prod.mk.inj step.1
    have sparing := spares c (by simp)
    have mine := user inUser
    have crossed : Crossed addr top c (m, s) := crosses_view linked.labels clear.abi mine.armed step
    rw [before] at mine
    have saved := crossed.saved clear sparing mine.saved
    refine ⟨?_, ?_, ?_⟩
    · rintro rfl
      rcases crossed.ends with ⟨-, resumes, same⟩ | ⟨-, -, same⟩
      · cases same
        refine ⟨crossed.armed, ?_⟩
        rw [resumes.mem, Cpu.set_mem]
        exact saved
      · cases same
    · rintro rfl
      exact crossed.returned saved
    · intro d member
      rcases List.mem_append.mp member with before | now
      · exact earlier d before
      · rw [List.mem_singleton.mp now]
        exact ⟨crossed.called, mine.saved.same sparing.1, crossed.interrupted.scratch⟩

theorem classify_own_stack (frame : TrapFrame) :
    Scheduler.classify frame ≠ .error .wrongTrapStack := by
  have pc : Scheduler.nextPc frame.sepc ≠ .error .wrongTrapStack := by
    unfold Scheduler.nextPc
    split <;> simp
  intro ran
  unfold Scheduler.classify at ran
  split at ran
  · split at ran <;> cases ran
  split at ran
  · split at ran
    · rcases bind_error.mp ran with overflow | ⟨_, -, ran⟩
      · exact pc overflow
      · cases ran
    · split at ran
      · rcases bind_error.mp ran with overflow | ⟨_, -, ran⟩
        · exact pc overflow
        · cases ran
      · cases ran
  split at ran <;> cases ran

/-- The handler's assertion on the address of the frame it is given. -/
theorem handle_own_stack (image : Scheduler.Image) (now : Nat) (address : Word) (frame : TrapFrame) :
    Scheduler.handle image now address address frame ≠ .error .wrongTrapStack := by
  intro ran
  unfold Scheduler.handle at ran
  rw [if_neg (by simp)] at ran
  split at ran
  · cases ran
  split at ran
  · cases ran
  rcases bind_error.mp ran with classified | ⟨_, -, ran⟩
  · exact classify_own_stack frame classified
  · cases ran

/-- How the Rust caller gives `run_user` the top of the trap stack, and
`run_task` the frame below it. -/
def CalledFor (routine : Label) (k : Cpu) (top : Word) : Prop :=
  (routine = .run_user ∧ top = k.get a3) ∨ (routine = .run_task ∧ below top = k.get a0)

/-- A kernel state about to call `run_task` on a frame below `0x80400000`. -/
def caller : Cpu where
  x r := if r = a0 then 0x803ffee0 else BitVec.ofNat 64 r
  csr _ := 0
  mem _ := 0

theorem layout_linked : Linked layout := by
  refine ⟨layout_injective, ?_, ?_, ?_⟩
  · decide
  · decide
  · decide

theorem layout_clear : Clear layout 0x80400000 := by
  refine ⟨⟨?_, ?_⟩, ?_⟩
  · decide
  · decide
  · decide

end Neonos.Assembly
