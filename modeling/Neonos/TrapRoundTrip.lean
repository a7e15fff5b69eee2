import Neonos.Model.Assembly

/-! Saving and restoring user code at a trap is exact: what the entry routines
store is the interrupted state, what the handler leaves in the frame is what
`sret` gives back, and the frame stays where it is from trap to trap. -/
namespace Neonos.Assembly
open Rv64 Rv64.Reg ByteMemory Runs

variable {addr : Label → Word} {s t : Cpu}

/-- Where the frame below a stack top starts. -/
def below (top : Word) : Word := top - BitVec.ofNat 64 TRAP_FRAME_SIZE

theorem add_size_neg (top : Word) : top + BitVec.ofInt 64 (-tf_size) = below top := by
  have negative : BitVec.ofInt 64 (-tf_size) = -BitVec.ofNat 64 TRAP_FRAME_SIZE := by decide
  rw [negative, ← BitVec.sub_eq_add_neg]
  rfl

theorem below_add_size (top : Word) : below top + BitVec.ofInt 64 tf_size = top := by
  have size : BitVec.ofInt 64 tf_size = BitVec.ofNat 64 TRAP_FRAME_SIZE := by decide
  rw [size]
  exact BitVec.sub_add_cancel top _

/-- The 36 doublewords of a frame that describes a processor state. -/
def words (t : Cpu) (k : Nat) : Word :=
  if small : k < 32 then t.get ⟨k, small⟩
  else if k = 32 then t.csr .sstatus
  else if k = 33 then t.csr .sepc
  else if k = 34 then t.csr .scause
  else t.csr .stval

theorem words_reg (t : Cpu) (r : Reg) : words t r.val = t.get r := by
  simp [words, r.isLt]

/-! ### The common part of the two entries -/

/-- The registers saved in order, each in its own slot. -/
def common : List (Reg × Nat) :=
  [(t1, 6), (t2, 7), (s0, 8), (s1, 9), (a0, 10), (a1, 11), (a2, 12), (a3, 13), (a4, 14), (a5, 15),
    (a6, 16), (a7, 17), (s2, 18), (s3, 19), (s4, 20), (s5, 21), (s6, 22), (s7, 23), (s8, 24),
    (s9, 25), (s10, 26), (s11, 27), (t3, 28), (t4, 29), (t5, 30), (t6, 31)]

def saveCsrs : List (Instr Label) :=
  [.csrr t0 .sstatus, .sd t0 SSTATUS sp, .csrr t0 .sepc, .sd t0 SEPC sp,
    .csrr t0 .scause, .sd t0 SCAUSE sp, .csrr t0 .stval, .sd t0 STVAL sp, .mv a0 sp]

theorem saveCommon_split : saveCommon = saves sp common ++ saveCsrs := rfl

theorem common_own : ∀ save ∈ common, save.1.val = save.2 ∧ 6 ≤ save.2 := by decide

/-- From `t1` on registers and CSRs still hold what they held at the trap. -/
structure Holds (s t : Cpu) : Prop where
  regs : ∀ r : Reg, 6 ≤ r.val → s.get r = t.get r
  sstatus : s.csr .sstatus = t.csr .sstatus
  sepc : s.csr .sepc = t.csr .sepc
  scause : s.csr .scause = t.csr .scause
  stval : s.csr .stval = t.csr .stval

theorem line_saveCsrs (addr : Label → Word) (holds : Holds s t) :
    (line addr saveCsrs s).mem = storeSlots s.mem (s.get sp) (words t) [32, 33, 34, 35] ∧
      (line addr saveCsrs s).get a0 = s.get sp := by
  constructor
  · simp [saveCsrs, Instr.run, Cpu.get_set, storeSlots, words, SSTATUS, SEPC, SCAUSE, STVAL, slot,
      holds.sstatus, holds.sepc, holds.scause, holds.stval]
  · simp [saveCsrs, Instr.run, Cpu.get_set]

theorem line_saveCommon (addr : Label → Word) (holds : Holds s t) :
    (line addr saveCommon s).mem = storeSlots s.mem (s.get sp) (words t) (List.range' 6 30) ∧
      (line addr saveCommon s).get a0 = s.get sp := by
  have values : ∀ save ∈ common, s.get save.1 = words t save.2 := by
    intro save member
    obtain ⟨own, late⟩ := common_own save member
    rw [← own, words_reg]
    exact holds.regs save.1 (own ▸ late)
  have slots : common.map Prod.snd = List.range' 6 26 := by decide
  have range : List.range' 6 30 = List.range' 6 26 ++ [32, 33, 34, 35] := rfl
  obtain ⟨mem, csr, regs⟩ := line_saves addr sp common s (words t) values
  rw [saveCommon_split, line_append]
  generalize line addr (saves sp common) s = u at mem csr regs ⊢
  have still : Holds u t := by
    refine ⟨fun r late => (regs r).trans (holds.regs r late), ?_, ?_, ?_, ?_⟩
    · rw [csr, holds.sstatus]
    · rw [csr, holds.sepc]
    · rw [csr, holds.scause]
    · rw [csr, holds.stval]
  obtain ⟨csrs, argument⟩ := line_saveCsrs addr still
  refine ⟨?_, argument.trans (regs sp)⟩
  rw [csrs, mem, regs, slots, range, storeSlots_append]

/-! ### `user_trap_entry` -/

/-- Off the user stack. -/
def trapStack : List (Instr Label) := [.csrrw sp .sscratch sp, .addi sp sp (-tf_size)]

/-- The same, with everything saved that the entry needs for itself. -/
def userSaves : List (Instr Label) :=
  trapStack ++ (saves sp [(t0, 5), (gp, 3), (tp, 4)] ++ ([.csrr t0 .sscratch] ++ saves sp [(t0, 2)]))

/-- Its way to the kernel's vector, `gp` and `tp`. -/
def kernelAbi : List (Instr Label) :=
  [.la t0 .trap_entry, .csrw .stvec t0, .la t0 .kernel_gp_saved, .ld gp 0 t0,
    .la t0 .kernel_tp_saved, .ld tp 0 t0]

/-- What follows the call of the handler. -/
def afterHandler : List (Instr Label) :=
  [.li t0 1, .beq a0 t0 .terminate_process] ++ restore_user_frame

theorem user_trap_entry_split : program .user_trap_entry =
    (userSaves ++ (kernelAbi ++ (saves sp [(zero, 0), (ra, 1)] ++ saveCommon))) ++
      .call .rust_user_trap_handler :: afterHandler := rfl

theorem line_trapStack (addr : Label → Word) (t : Cpu) :
    (line addr trapStack t).get sp = below (t.csr .sscratch) ∧
      (line addr trapStack t).csr .sscratch = t.get sp := by
  constructor
  · simp [trapStack, Instr.run, Cpu.get_set, add_size_neg]
  · simp [trapStack, Instr.run]

theorem line_kernelAbi (addr : Label → Word) (s : Cpu) :
    (line addr kernelAbi s).get gp = load s.mem (addr .kernel_gp_saved) ∧
      (line addr kernelAbi s).get tp = load s.mem (addr .kernel_tp_saved) ∧
      (line addr kernelAbi s).csr .stvec = addr .trap_entry := by
  refine ⟨?_, ?_, ?_⟩
  · simp [kernelAbi, Instr.run, Cpu.get_set]
  · simp [kernelAbi, Instr.run, Cpu.get_set]
  · simp [kernelAbi, Instr.run, Cpu.get_set]

/-- The order in which `user_trap_entry` fills the frame. -/
def userOrder : List Nat := [5, 3, 4] ++ [2] ++ [0, 1] ++ List.range' 6 30

/-- The state in which `user_trap_entry` calls the handler. -/
structure CallsHandler (addr : Label → Word) (t called : Cpu) : Prop where
  mem : called.mem = storeSlots t.mem (below (t.csr .sscratch)) (words t) userOrder
  stack : called.get sp = below (t.csr .sscratch)
  argument : called.get a0 = below (t.csr .sscratch)
  gp : called.get gp = load t.mem (addr .kernel_gp_saved)
  tp : called.get tp = load t.mem (addr .kernel_tp_saved)
  vector : called.csr .stvec = addr .trap_entry

theorem line_userSaves (addr : Label → Word) (t : Cpu) :
    ∃ u, line addr userSaves t = u ∧
      u.mem = storeSlots t.mem (below (t.csr .sscratch)) (words t) ([5, 3, 4] ++ [2]) ∧
      u.get sp = below (t.csr .sscratch) ∧ (∀ r, r ≠ sp → r ≠ t0 → u.get r = t.get r) ∧
      ∀ c, c ≠ .sscratch → u.csr c = t.csr c := by
  rw [userSaves, line_append, line_append, line_append]
  obtain ⟨stack₁, user₁⟩ := line_trapStack addr t
  have mem₁ := line_mem addr trapStack t (by decide)
  have kept₁ (r : Reg) (notSp : r ≠ sp) : (line addr trapStack t).get r = t.get r :=
    line_get trapStack t (by decide) (by simp [trapStack, Instr.rd, notSp.symm])
  have csr₁ (c : Csr) (other : c ≠ .sscratch) : (line addr trapStack t).csr c = t.csr c :=
    line_csr trapStack t (by simp [trapStack, Instr.csrOut, other.symm])
  generalize line addr trapStack t = u₁ at *
  have own : ∀ save ∈ [(t0, 5), (gp, 3), (tp, 4)], u₁.get save.1 = words t save.2 := by
    intro save member
    have slot_ : save.1.val = save.2 ∧ save.1 ≠ sp := by
      revert save
      decide
    rw [← slot_.1, words_reg]
    exact kept₁ save.1 slot_.2
  obtain ⟨mem₂, csr₂, regs₂⟩ := line_saves addr sp _ u₁ (words t) own
  generalize line addr (saves sp [(t0, 5), (gp, 3), (tp, 4)]) u₁ = u₂ at *
  have user₃ : (line addr [.csrr t0 .sscratch] u₂).get t0 = t.get sp := by
    rw [line_cons, line_nil, Instr.run, Cpu.get_set _ _ (by decide), if_pos rfl, csr₂, user₁]
  have mem₃ := line_mem addr [.csrr t0 .sscratch] u₂ (by decide)
  have kept₃ (r : Reg) (notT0 : r ≠ t0) : (line addr [.csrr t0 .sscratch] u₂).get r = u₂.get r :=
    line_get [.csrr t0 .sscratch] u₂ (by decide) (by simpa [Instr.rd] using notT0.symm)
  have csr₃ (c : Csr) : (line addr [.csrr t0 .sscratch] u₂).csr c = u₂.csr c :=
    line_csr [.csrr t0 .sscratch] u₂ (by simp [Instr.csrOut])
  generalize line addr [.csrr t0 .sscratch] u₂ = u₃ at *
  have saved : ∀ save ∈ [(t0, 2)], u₃.get save.1 = words t save.2 := by
    intro save member
    rw [List.mem_singleton.mp member, user₃]
    exact (words_reg t sp).symm
  obtain ⟨mem₄, csr₄, regs₄⟩ := line_saves addr sp _ u₃ (words t) saved
  refine ⟨_, rfl, ?_, ?_, fun r notSp notT0 => ?_, fun c other => ?_⟩
  · rw [mem₄, mem₃, kept₃ sp (by decide), regs₂, stack₁, mem₂, mem₁, stack₁]
    exact storeSlots_append t.mem (below (t.csr .sscratch)) (words t) [5, 3, 4] [2]
  · rw [regs₄, kept₃ sp (by decide), regs₂, stack₁]
  · rw [regs₄, kept₃ r notT0, regs₂, kept₁ r notSp]
  · rw [csr₄, csr₃, csr₂, csr₁ c other]

/-- `user_trap_entry` always gets to its handler, with the whole frame stored. -/
theorem user_trap_entry_calls (t : Cpu)
    (gpOutside : Outside (below (t.csr .sscratch)) 36 (addr .kernel_gp_saved))
    (tpOutside : Outside (below (t.csr .sscratch)) 36 (addr .kernel_tp_saved)) :
    ∃ called, CallsHandler addr t called ∧ Flows addr program (program .user_trap_entry) t called
      (.call .rust_user_trap_handler afterHandler) := by
  obtain ⟨u₄, ran₄, mem₄, stack₄, kept₄, csr₄⟩ := line_userSaves addr t
  obtain ⟨gp₅, tp₅, vector₅⟩ := line_kernelAbi addr u₄
  have mem₅ := line_mem addr kernelAbi u₄ (by decide)
  have kept₅ (r : Reg) (notT0 : r ≠ t0) (notGp : r ≠ gp) (notTp : r ≠ tp) :
      (line addr kernelAbi u₄).get r = u₄.get r :=
    line_get kernelAbi u₄ (by decide) (by simp [kernelAbi, Instr.rd, notT0.symm, notGp.symm, notTp.symm])
  have csr₅ (c : Csr) (other : c ≠ .stvec) : (line addr kernelAbi u₄).csr c = u₄.csr c :=
    line_csr kernelAbi u₄ (by simp [kernelAbi, Instr.csrOut, other.symm])
  generalize five : line addr kernelAbi u₄ = u₅ at *
  have own : ∀ save ∈ [(zero, 0), (ra, 1)], u₅.get save.1 = words t save.2 := by
    intro save member
    rcases List.mem_pair.mp member with rfl | rfl
    · exact (u₅.get_zero).trans (t.get_zero).symm
    · rw [kept₅ ra (by decide) (by decide) (by decide), kept₄ ra (by decide) (by decide)]
      exact (words_reg t ra).symm
  obtain ⟨mem₆, csr₆, regs₆⟩ := line_saves addr sp _ u₅ (words t) own
  generalize six : line addr (saves sp [(zero, 0), (ra, 1)]) u₅ = u₆ at *
  have holds : Holds u₆ t := by
    refine ⟨fun r late => ?_, ?_, ?_, ?_, ?_⟩
    · have apart (q : Reg) (early : q.val < 6) : r ≠ q := by
        rintro rfl
        omega
      rw [regs₆, kept₅ r (apart t0 (by decide)) (apart gp (by decide)) (apart tp (by decide)),
        kept₄ r (apart sp (by decide)) (apart t0 (by decide))]
    · rw [csr₆, csr₅ _ (by decide), csr₄ _ (by decide)]
    · rw [csr₆, csr₅ _ (by decide), csr₄ _ (by decide)]
    · rw [csr₆, csr₅ _ (by decide), csr₄ _ (by decide)]
    · rw [csr₆, csr₅ _ (by decide), csr₄ _ (by decide)]
  obtain ⟨mem₇, argument₇⟩ := line_saveCommon addr holds
  have kept₇ (r : Reg) (notT0 : r ≠ t0) (notA0 : r ≠ a0) : (line addr saveCommon u₆).get r = u₆.get r :=
    line_get saveCommon u₆ (by decide) (by simp [saveCommon, Instr.rd, notT0.symm, notA0.symm])
  have csr₇ : (line addr saveCommon u₆).csr .stvec = u₆.csr .stvec :=
    line_csr saveCommon u₆ (by decide)
  have stack₆ : u₆.get sp = below (t.csr .sscratch) := by
    rw [regs₆, kept₅ sp (by decide) (by decide) (by decide), stack₄]
  refine ⟨line addr saveCommon u₆, ⟨?_, ?_, ?_, ?_, ?_, ?_⟩, .here ?_ (by simp)⟩
  · rw [mem₇, stack₆, mem₆, mem₅, mem₄, kept₅ sp (by decide) (by decide) (by decide), stack₄,
      storeSlots_append]
    exact storeSlots_append _ _ _ _ _
  · rw [kept₇ sp (by decide) (by decide), stack₆]
  · rw [argument₇, stack₆]
  · rw [kept₇ gp (by decide) (by decide), regs₆, gp₅, mem₄]
    exact load_storeSlots_outside gpOutside (by decide)
  · rw [kept₇ tp (by decide) (by decide), regs₆, tp₅, mem₄]
    exact load_storeSlots_outside tpOutside (by decide)
  · rw [csr₇, csr₆, vector₅]
  · rw [user_trap_entry_split, exec_line _ _ (by decide), line_append, ran₄, line_append, five,
      line_append, six]
    rfl

/-! ### `restore_user_frame` -/

/-- One CSR from its slot. -/
def restoreCsr (c : Csr) (k : Nat) : List (Instr Label) := [.ld t0 (8 * k) sp, .csrw c t0]

def restoreCsrs : List (Instr Label) :=
  restoreCsr .sepc 33 ++ (restoreCsr .sstatus 32 ++ restoreCsr .sscratch 2)

/-- The registers restored in order, each from its own slot. -/
def restored : List (Reg × Nat) := [(ra, 1), (gp, 3), (tp, 4)] ++ common

/-- Back to the user's vector and stack. -/
def leaveKernel : List (Instr Label) :=
  [.la t0 .user_trap_entry, .csrw .stvec t0, .ld t0 (X 5) sp, .addi sp sp tf_size,
    .csrrw sp .sscratch sp]

theorem restore_user_frame_split :
    restore_user_frame = (restoreCsrs ++ (loads sp restored ++ leaveKernel)) ++ [.sret] := rfl

theorem line_restoreCsr (addr : Label → Word) (c : Csr) (k : Nat) (s : Cpu) :
    (line addr (restoreCsr c k) s).csr c = load s.mem (slot (s.get sp) k) ∧
      (∀ d, d ≠ c → (line addr (restoreCsr c k) s).csr d = s.csr d) ∧
      (line addr (restoreCsr c k) s).get sp = s.get sp ∧
      (line addr (restoreCsr c k) s).mem = s.mem := by
  refine ⟨?_, fun d other => ?_, ?_, ?_⟩
  · rw [restoreCsr, line_cons, line_cons, line_nil, Instr.run, Instr.run, Cpu.setCsr_csr,
      Function.update_self, Cpu.get_set _ _ (by decide), if_pos rfl]
    rfl
  · exact line_csr _ s (by simp [restoreCsr, Instr.csrOut, other.symm])
  · exact line_get _ s (by simp [restoreCsr, Instr.rd]) (by simp [restoreCsr, Instr.rd])
  · exact line_mem addr _ s (by simp [restoreCsr, Instr.Stores])

theorem line_restoreCsrs (addr : Label → Word) (s : Cpu) :
    (line addr restoreCsrs s).csr .sepc = load s.mem (slot (s.get sp) 33) ∧
      (line addr restoreCsrs s).csr .sstatus = load s.mem (slot (s.get sp) 32) ∧
      (line addr restoreCsrs s).csr .sscratch = load s.mem (slot (s.get sp) 2) := by
  rw [restoreCsrs, line_append, line_append]
  obtain ⟨sepc₁, -, stack₁, mem₁⟩ := line_restoreCsr addr .sepc 33 s
  generalize line addr (restoreCsr .sepc 33) s = u₁ at *
  obtain ⟨sstatus₂, kept₂, stack₂, mem₂⟩ := line_restoreCsr addr .sstatus 32 u₁
  generalize line addr (restoreCsr .sstatus 32) u₁ = u₂ at *
  obtain ⟨scratch₃, kept₃, -, -⟩ := line_restoreCsr addr .sscratch 2 u₂
  refine ⟨?_, ?_, ?_⟩
  · rw [kept₃ _ (by decide), kept₂ _ (by decide), sepc₁]
  · rw [kept₃ _ (by decide), sstatus₂, mem₁, stack₁]
  · rw [scratch₃, mem₂, mem₁, stack₂, stack₁]

theorem line_leaveKernel (addr : Label → Word) (s : Cpu) :
    (line addr leaveKernel s).get t0 = load s.mem (slot (s.get sp) 5) ∧
      (line addr leaveKernel s).get sp = s.csr .sscratch ∧
      (line addr leaveKernel s).csr .sscratch = s.get sp + BitVec.ofInt 64 tf_size ∧
      (line addr leaveKernel s).csr .stvec = addr .user_trap_entry := by
  refine ⟨?_, ?_, ?_, ?_⟩
  · simp [leaveKernel, Instr.run, Cpu.get_set, X, slot]
  · simp [leaveKernel, Instr.run, Cpu.get_set]
  · simp [leaveKernel, Instr.run, Cpu.get_set]
  · simp [leaveKernel, Instr.run, Cpu.get_set]

/-- The state at `sret`, from the frame at the trap-stack pointer. -/
structure Resumes (addr : Label → Word) (s r : Cpu) : Prop where
  regs : ∀ q : Reg, q ≠ 0 → r.get q = load s.mem (slot (s.get sp) q)
  sepc : r.csr .sepc = load s.mem (slot (s.get sp) 33)
  sstatus : r.csr .sstatus = load s.mem (slot (s.get sp) 32)
  scratch : r.csr .sscratch = s.get sp + BitVec.ofInt 64 tf_size
  vector : r.csr .stvec = addr .user_trap_entry
  mem : r.mem = s.mem

theorem restore_user_frame_resumes (addr : Label → Word) (s : Cpu) :
    ∃ r, Resumes addr s r ∧ Flows addr program restore_user_frame s r .sret := by
  obtain ⟨sepc₁, sstatus₁, scratch₁⟩ := line_restoreCsrs addr s
  have mem₁ := line_mem addr restoreCsrs s (by decide)
  have stack₁ : (line addr restoreCsrs s).get sp = s.get sp :=
    line_get restoreCsrs s (by decide) (by decide)
  generalize one : line addr restoreCsrs s = u₁ at *
  obtain ⟨mem₂, csr₂, filled₂, kept₂⟩ := line_loads addr sp restored u₁ (by decide)
    (by decide) (by decide)
  rw [mem₁, stack₁] at filled₂
  have stack₂ := kept₂ sp (by decide)
  generalize two : line addr (loads sp restored) u₁ = u₂ at *
  obtain ⟨t0₃, sp₃, scratch₃, vector₃⟩ := line_leaveKernel addr u₂
  have mem₃ := line_mem addr leaveKernel u₂ (by decide)
  have kept₃ (r : Reg) (notT0 : r ≠ t0) (notSp : r ≠ sp) : (line addr leaveKernel u₂).get r = u₂.get r :=
    line_get leaveKernel u₂ (by decide) (by simp [leaveKernel, Instr.rd, notT0.symm, notSp.symm])
  have csr₃ (c : Csr) (notVector : c ≠ .stvec) (notScratch : c ≠ .sscratch) :
      (line addr leaveKernel u₂).csr c = u₂.csr c :=
    line_csr leaveKernel u₂ (by simp [leaveKernel, Instr.csrOut, notVector.symm, notScratch.symm])
  have stack : u₂.get sp = s.get sp := stack₂.trans stack₁
  refine ⟨line addr leaveKernel u₂, ⟨fun q proper => ?_, ?_, ?_, ?_, vector₃, ?_⟩, .here ?_ (by simp)⟩
  · by_cases isT0 : q = t0
    · rw [isT0, t0₃, mem₂, mem₁, stack]
      rfl
    by_cases isSp : q = sp
    · rw [isSp, sp₃, csr₂, scratch₁]
      rfl
    · rw [kept₃ q isT0 isSp]
      have listed : (q, q.val) ∈ restored := by
        revert q
        decide
      exact filled₂ (q, q.val) listed
  · rw [csr₃ _ (by decide) (by decide), csr₂, sepc₁]
  · rw [csr₃ _ (by decide) (by decide), csr₂, sstatus₁]
  · rw [scratch₃, stack]
  · rw [mem₃, mem₂, mem₁]
  · rw [restore_user_frame_split, exec_line _ _ (by decide), line_append, one, line_append, two]
    rfl

/-- With any answer but 1 the code after the handler goes on to restore the frame. -/
theorem afterHandler_resumes (addr : Label → Word) (s : Cpu) (resume : s.get a0 ≠ 1) :
    ∃ r, Resumes addr (s.set t0 1) r ∧ Flows addr program afterHandler s r .sret := by
  obtain ⟨r, resumes, flows⟩ := restore_user_frame_resumes addr (s.set t0 1)
  have other : (s.set t0 1).get a0 ≠ (s.set t0 1).get t0 := by
    rw [Cpu.get_set _ _ (by decide), Cpu.get_set _ _ (by decide)]
    exact resume
  have same : exec addr afterHandler s = exec addr restore_user_frame (s.set t0 1) := by
    change (if (s.set t0 (BitVec.ofInt 64 1)).get a0 = (s.set t0 (BitVec.ofInt 64 1)).get t0 then _
      else _) = _
    exact if_neg other
  refine ⟨r, resumes, ?_⟩
  cases flows with
  | here ran stops => exact .here (same.trans ran) stops
  | jump ran rest => exact .jump (same.trans ran) rest

/-! ### Frames -/

/-- The `TrapFrame` at an address. -/
def frameAt (m : Memory) (base : Word) : TrapFrame where
  x k := load m (slot base k)
  sstatus := load m (slot base 32)
  sepc := load m (slot base 33)
  scause := load m (slot base 34)
  stval := load m (slot base 35)

/-- A processor state as a trap frame describes it. -/
def state (t : Cpu) : TrapFrame where
  x := t.get
  sstatus := t.csr .sstatus
  sepc := t.csr .sepc
  scause := t.csr .scause
  stval := t.csr .stval

/-- A frame is known by its 36 doublewords. -/
theorem frameAt_eq {m : Memory} {base : Word} {value : Nat → Word} (held : ∀ n < 36, load m (slot base n) = value n) :
    frameAt m base = ⟨fun q => value q, value 32, value 33, value 34, value 35⟩ := by
  unfold frameAt
  congr 1
  · funext q
    exact held q (by omega)
  · exact held 32 (by decide)
  · exact held 33 (by decide)
  · exact held 34 (by decide)
  · exact held 35 (by decide)

/-- Storing all 36 doublewords in any order leaves the state in the frame. -/
theorem frame_stored (m : Memory) (base : Word) (t : Cpu) {order : List Nat} (distinct : order.Nodup)
    (within : ∀ k ∈ order, k < 36) (whole : ∀ k < 36, k ∈ order) :
    frameAt (storeSlots m base (words t) order) base = state t := by
  have held (k : Nat) (inside : k < 36) :
      load (storeSlots m base (words t) order) (slot base k) = words t k :=
    load_storeSlots (by decide) within distinct (whole k inside)
  have regs : (fun q : Fin 32 => words t q) = t.get := funext (words_reg t)
  rw [frameAt_eq held, regs]
  rfl

/-! ### `trap_entry` -/

theorem trap_entry_split : program .trap_entry =
    ([.addi sp sp (-tf_size)] ++ (saves sp [(t0, 5)] ++ ([.addi t0 sp tf_size] ++ (saves sp [(t0, 2)] ++
      (saves sp [(zero, 0), (ra, 1), (gp, 3), (tp, 4)] ++ saveCommon))))) ++
      .call .rust_trap_handler :: trap_entry_1 := rfl

/-- The order in which `trap_entry` fills the frame. -/
def kernelOrder : List Nat := [5] ++ [2] ++ [0, 1, 3, 4] ++ List.range' 6 30

theorem trap_entry_calls (addr : Label → Word) (t : Cpu) :
    ∃ called, called.mem = storeSlots t.mem (below (t.get sp)) (words t) kernelOrder ∧
      called.get a0 = below (t.get sp) ∧
      Flows addr program (program .trap_entry) t called (.call .rust_trap_handler trap_entry_1) := by
  have stack₁ : (line addr [.addi sp sp (-tf_size)] t).get sp = below (t.get sp) := by
    rw [line_cons, line_nil, Instr.run, Cpu.get_set _ _ (by decide), if_pos rfl, add_size_neg]
  have mem₁ := line_mem addr [.addi sp sp (-tf_size)] t (by decide)
  have kept₁ (r : Reg) (notSp : r ≠ sp) : (line addr [.addi sp sp (-tf_size)] t).get r = t.get r :=
    line_get [.addi sp sp (-tf_size)] t (by decide) (by simpa [Instr.rd] using notSp.symm)
  have csr₁ (c : Csr) : (line addr [.addi sp sp (-tf_size)] t).csr c = t.csr c :=
    line_csr [.addi sp sp (-tf_size)] t (by simp [Instr.csrOut])
  generalize one : line addr [.addi sp sp (-tf_size)] t = u₁ at *
  have own₂ : ∀ save ∈ [(t0, 5)], u₁.get save.1 = words t save.2 := by
    intro save member
    rw [List.mem_singleton.mp member, kept₁ t0 (by decide)]
    exact (words_reg t t0).symm
  obtain ⟨mem₂, csr₂, regs₂⟩ := line_saves addr sp _ u₁ (words t) own₂
  generalize two : line addr (saves sp [(t0, 5)]) u₁ = u₂ at *
  have user₃ : (line addr [.addi t0 sp tf_size] u₂).get t0 = t.get sp := by
    rw [line_cons, line_nil, Instr.run, Cpu.get_set _ _ (by decide), if_pos rfl, regs₂, stack₁,
      below_add_size]
  have mem₃ := line_mem addr [.addi t0 sp tf_size] u₂ (by decide)
  have kept₃ (r : Reg) (notT0 : r ≠ t0) : (line addr [.addi t0 sp tf_size] u₂).get r = u₂.get r :=
    line_get [.addi t0 sp tf_size] u₂ (by decide) (by simpa [Instr.rd] using notT0.symm)
  have csr₃ (c : Csr) : (line addr [.addi t0 sp tf_size] u₂).csr c = u₂.csr c :=
    line_csr [.addi t0 sp tf_size] u₂ (by simp [Instr.csrOut])
  generalize three : line addr [.addi t0 sp tf_size] u₂ = u₃ at *
  have own₄ : ∀ save ∈ [(t0, 2)], u₃.get save.1 = words t save.2 := by
    intro save member
    rw [List.mem_singleton.mp member, user₃]
    exact (words_reg t sp).symm
  obtain ⟨mem₄, csr₄, regs₄⟩ := line_saves addr sp _ u₃ (words t) own₄
  generalize four : line addr (saves sp [(t0, 2)]) u₃ = u₄ at *
  have kept (r : Reg) (notT0 : r ≠ t0) (notSp : r ≠ sp) : u₄.get r = t.get r := by
    rw [regs₄, kept₃ r notT0, regs₂, kept₁ r notSp]
  have own₅ : ∀ save ∈ [(zero, 0), (ra, 1), (gp, 3), (tp, 4)], u₄.get save.1 = words t save.2 := by
    intro save member
    have slot_ : save.1.val = save.2 ∧ save.1 ≠ t0 ∧ save.1 ≠ sp := by
      revert save
      decide
    rw [← slot_.1, words_reg]
    exact kept save.1 slot_.2.1 slot_.2.2
  obtain ⟨mem₅, csr₅, regs₅⟩ := line_saves addr sp _ u₄ (words t) own₅
  generalize five : line addr (saves sp [(zero, 0), (ra, 1), (gp, 3), (tp, 4)]) u₄ = u₅ at *
  have stack₅ : u₅.get sp = below (t.get sp) := by
    rw [regs₅, regs₄, kept₃ sp (by decide), regs₂, stack₁]
  have csr (c : Csr) : u₅.csr c = t.csr c := by
    rw [csr₅, csr₄, csr₃, csr₂, csr₁]
  have holds : Holds u₅ t := by
    refine ⟨fun r late => ?_, csr _, csr _, csr _, csr _⟩
    have apart (q : Reg) (early : q.val < 6) : r ≠ q := by
      rintro rfl
      omega
    rw [regs₅, kept r (apart t0 (by decide)) (apart sp (by decide))]
  obtain ⟨mem₆, argument₆⟩ := line_saveCommon addr holds
  refine ⟨line addr saveCommon u₅, ?_, argument₆.trans stack₅, .here ?_ (by simp)⟩
  · have stack₄ : u₄.get sp = below (t.get sp) := (regs₅ sp).symm.trans stack₅
    have stack₃ : u₃.get sp = below (t.get sp) := (regs₄ sp).symm.trans stack₄
    rw [mem₆, stack₅, mem₅, stack₄, mem₄, stack₃, mem₃, mem₂, stack₁, mem₁, storeSlots_append,
      storeSlots_append, storeSlots_append]
    rfl
  · rw [trap_entry_split, exec_line _ _ (by decide), line_append, one, line_append, two, line_append,
      three, line_append, four, line_append, five]
    rfl

/-! ### `terminate_process` -/

def dropUser : List (Instr Label) := [.csrw .sscratch zero, .la t0 .kernel_context]

/-- The kernel context's registers but `sp`, each with its slot. -/
def context : List (Reg × Nat) :=
  [(ra, 0), (gp, 2), (tp, 3), (s0, 4), (s1, 5), (s2, 6), (s3, 7), (s4, 8), (s5, 9), (s6, 10),
    (s7, 11), (s8, 12), (s9, 13), (s10, 14), (s11, 15)]

def kernelStack : List (Instr Label) := [.ld t1 KCTX_SP t0, .mv sp t1]

theorem terminate_process_split :
    terminate_process = (dropUser ++ (loads t0 context ++ kernelStack)) ++ [.ret] := rfl

/-- The state at `ret`, from the kernel context. -/
structure Terminates (addr : Label → Word) (s r : Cpu) : Prop where
  stack : r.get sp = load s.mem (slot (addr .kernel_context) 1)
  regs : ∀ fill ∈ context, r.get fill.1 = load s.mem (slot (addr .kernel_context) fill.2)
  answer : r.get a0 = s.get a0
  scratch : r.csr .sscratch = 0
  vector : r.csr .stvec = s.csr .stvec
  mem : r.mem = s.mem

theorem terminate_process_returns (addr : Label → Word) (s : Cpu) :
    ∃ r, Terminates addr s r ∧ Flows addr program terminate_process s r .ret := by
  have base₁ : (line addr dropUser s).get t0 = addr .kernel_context := by
    simp [dropUser, Instr.run, Cpu.get_set]
  have scratch₁ : (line addr dropUser s).csr .sscratch = 0 := by
    simp [dropUser, Instr.run]
  have mem₁ := line_mem addr dropUser s (by decide)
  have answer₁ : (line addr dropUser s).get a0 = s.get a0 :=
    line_get dropUser s (by decide) (by decide)
  have vector₁ : (line addr dropUser s).csr .stvec = s.csr .stvec :=
    line_csr dropUser s (by decide)
  generalize one : line addr dropUser s = u₁ at *
  obtain ⟨mem₂, csr₂, filled₂, kept₂⟩ := line_loads addr t0 context u₁ (by decide)
    (by decide) (by decide)
  rw [mem₁, base₁] at filled₂
  have base₂ := kept₂ t0 (by decide)
  have answer₂ := kept₂ a0 (by decide)
  generalize two : line addr (loads t0 context) u₁ = u₂ at *
  have stack₃ : (line addr kernelStack u₂).get sp = load u₂.mem (slot (u₂.get t0) 1) := by
    simp [kernelStack, Instr.run, Cpu.get_set, KCTX_SP, slot]
  have kept₃ (r : Reg) (notT1 : r ≠ t1) (notSp : r ≠ sp) : (line addr kernelStack u₂).get r = u₂.get r :=
    line_get kernelStack u₂ (by decide) (by simp [kernelStack, Instr.rd, notT1.symm, notSp.symm])
  have csr₃ (c : Csr) : (line addr kernelStack u₂).csr c = u₂.csr c :=
    line_csr kernelStack u₂ (by simp [kernelStack, Instr.csrOut])
  have mem₃ := line_mem addr kernelStack u₂ (by decide)
  refine ⟨line addr kernelStack u₂, ⟨?_, fun fill member => ?_, ?_, ?_, ?_, ?_⟩, .here ?_ (by simp)⟩
  · rw [stack₃, mem₂, mem₁, base₂, base₁]
  · have apart : fill.1 ≠ t1 ∧ fill.1 ≠ sp := by
      revert fill
      decide
    rw [kept₃ _ apart.1 apart.2]
    exact filled₂ fill member
  · rw [kept₃ a0 (by decide) (by decide), answer₂, answer₁]
  · rw [csr₃, csr₂, scratch₁]
  · rw [csr₃, csr₂, vector₁]
  · rw [mem₃, mem₂, mem₁]
  · rw [terminate_process_split, exec_line _ _ (by decide), line_append, one, line_append, two]
    rfl

/-- With the answer 1 the code after the handler returns to the kernel. -/
theorem afterHandler_terminates (addr : Label → Word) (s : Cpu) (terminate : s.get a0 = 1) :
    ∃ r, Terminates addr (s.set t0 1) r ∧ Flows addr program afterHandler s r .ret := by
  obtain ⟨r, terminates, flows⟩ := terminate_process_returns addr (s.set t0 1)
  have same : (s.set t0 1).get a0 = (s.set t0 1).get t0 := by
    rw [Cpu.get_set _ _ (by decide), Cpu.get_set _ _ (by decide)]
    exact terminate
  have jumps : exec addr afterHandler s = (s.set t0 1, .jump .terminate_process) := by
    change (if (s.set t0 (BitVec.ofInt 64 1)).get a0 = (s.set t0 (BitVec.ofInt 64 1)).get t0 then _
      else _) = _
    exact if_pos same
  exact ⟨r, terminates, .jump jumps flows⟩

/-! ### Traps in a row -/

/-- The trap stack at `top` keeps clear of the saved kernel registers. -/
def ClearOfAbi (addr : Label → Word) (top : Word) : Prop :=
  Outside (below top) 36 (addr .kernel_gp_saved) ∧ Outside (below top) 36 (addr .kernel_tp_saved)

/-- Ready for the next trap from user code. -/
structure Armed (addr : Label → Word) (top : Word) (u : Cpu) : Prop where
  scratch : u.csr .sscratch = top
  vector : u.csr .stvec = addr .user_trap_entry

/-- Everything one trap does, when user code was entered ready for it. -/
structure Crossed (addr : Label → Word) (top : Word) (c : Crossing) (s' : Mode × Cpu) : Prop where
  interrupted : Armed addr top c.interrupted
  called : CallsHandler addr c.interrupted c.called
  abi : CAbi c.called c.answered
  ends : (c.answered.get a0 ≠ 1 ∧ Resumes addr (c.answered.set t0 1) c.after ∧ s' = (.user, c.after)) ∨
    (c.answered.get a0 = 1 ∧ Terminates addr (c.answered.set t0 1) c.after ∧ s' = (.back, c.after))

theorem crosses_view (linked : Function.Injective addr) (clear : ClearOfAbi addr top)
    (armed : Armed addr top u) (crosses : Crosses addr (m, u) c s') : Crossed addr top c s' := by
  obtain ⟨same, scratch, vector, entry, rest, exit, goes, flows, abi, on, ends⟩ := crosses
  cases same
  have interrupted : Armed addr top c.interrupted :=
    ⟨scratch.trans armed.scratch, vector.trans armed.vector⟩
  obtain rfl : Label.user_trap_entry = entry := linked (interrupted.vector.symm.trans goes)
  obtain ⟨called, calls, flows'⟩ := user_trap_entry_calls c.interrupted
    (interrupted.scratch ▸ clear.1) (interrupted.scratch ▸ clear.2)
  obtain ⟨rfl, code⟩ := flows.once flows'
  obtain rfl : rest = afterHandler := (Exit.call.inj code).2
  refine ⟨interrupted, calls, abi, ?_⟩
  by_cases answer : c.answered.get a0 = 1
  · obtain ⟨r, terminates, out⟩ := afterHandler_terminates addr c.answered answer
    obtain ⟨rfl, rfl⟩ := on.once out
    rcases ends with ⟨no, -⟩ | ⟨-, back⟩
    · cases no
    · exact .inr ⟨answer, terminates, back⟩
  · obtain ⟨r, resumes, out⟩ := afterHandler_resumes addr c.answered answer
    obtain ⟨rfl, rfl⟩ := on.once out
    rcases ends with ⟨-, user⟩ | ⟨no, -⟩
    · exact .inl ⟨answer, resumes, user⟩
    · cases no

/-- The handler's frame pointer survives it, also past the compare. -/
theorem Crossed.frame (crossed : Crossed addr top c s') : (c.answered.set t0 1).get sp = below top := by
  rw [Cpu.get_set _ _ (by decide), if_neg (by decide), crossed.abi.regs sp (by decide),
    crossed.called.stack, crossed.interrupted.scratch]

theorem Crossed.armed (crossed : Crossed addr top c (.user, u)) : Armed addr top u := by
  rcases crossed.ends with ⟨-, resumes, same⟩ | ⟨-, -, same⟩
  · cases same
    refine ⟨?_, resumes.vector⟩
    rw [resumes.scratch, crossed.frame, below_add_size]
  · cases same

theorem run_crossed (linked : Function.Injective addr) (clear : ClearOfAbi addr top)
    (armed : Armed addr top u) (run : Run (Crosses addr) (.user, u) crossings (m, s)) :
    (m = .user → Armed addr top s) ∧ ∀ c ∈ crossings, ∃ s', Crossed addr top c s' := by
  generalize first : (Mode.user, u) = start at run
  generalize last : (m, s) = final at run
  induction run generalizing m s with
  | nil =>
    obtain ⟨rfl, rfl⟩ := Prod.mk.inj (first.trans last.symm)
    exact ⟨fun _ => armed, by simp⟩
  | @snoc crossings middle c final run step ih =>
    subst first last
    obtain ⟨user, earlier⟩ := ih rfl
    have mode : middle.1 = .user := by rw [step.1]
    have crossed : Crossed addr top c (m, s) := crosses_view linked clear (user mode) step
    refine ⟨?_, ?_⟩
    · rintro rfl
      exact crossed.armed
    · intro d member
      rcases List.mem_append.mp member with before | now
      · exact earlier d before
      · rw [List.mem_singleton.mp now]
        exact ⟨_, crossed⟩

/-- Wherever user code has got to, its next trap goes through: whatever the
handler answers, control reaches user code or the caller. -/
theorem traps_cross (clear : ClearOfAbi addr top) (armed : Armed addr top u) (interrupted : Cpu)
    (scratch : interrupted.csr .sscratch = u.csr .sscratch)
    (vector : interrupted.csr .stvec = u.csr .stvec) :
    ∃ called, CallsHandler addr interrupted called ∧ ∀ answered, CAbi called answered → ∃ after m,
      Crosses addr (.user, u) ⟨u, interrupted, called, answered, after⟩ (m, after) := by
  have top' : interrupted.csr .sscratch = top := scratch.trans armed.scratch
  obtain ⟨called, calls, flows⟩ := user_trap_entry_calls interrupted
    (top' ▸ clear.1) (top' ▸ clear.2)
  refine ⟨called, calls, fun answered abi => ?_⟩
  have goes : interrupted.csr .stvec = addr .user_trap_entry := vector.trans armed.vector
  by_cases answer : answered.get a0 = 1
  · obtain ⟨r, -, out⟩ := afterHandler_terminates addr answered answer
    exact ⟨r, .back, rfl, scratch, vector, _, _, _, goes, flows, abi, out, .inr ⟨rfl, rfl⟩⟩
  · obtain ⟨r, -, out⟩ := afterHandler_resumes addr answered answer
    exact ⟨r, .user, rfl, scratch, vector, _, _, _, goes, flows, abi, out, .inl ⟨rfl, rfl⟩⟩

/-- A handler may answer anything. -/
theorem CAbi.answer (called : Cpu) (value : Word) : CAbi called (called.set a0 value) := by
  refine ⟨fun q member => ?_, by rw [Cpu.set_csr]⟩
  have other : q ≠ a0 := by
    revert q
    decide
  rw [Cpu.get_set _ _ (by decide), if_neg other]

/-- Both entries fill all 36 doublewords once. -/
theorem orders_whole : (userOrder.Nodup ∧ (∀ k ∈ userOrder, k < 36) ∧ ∀ k < 36, k ∈ userOrder) ∧
    kernelOrder.Nodup ∧ (∀ k ∈ kernelOrder, k < 36) ∧ ∀ k < 36, k ∈ kernelOrder := by
  decide

theorem CallsHandler.frame (calls : CallsHandler addr t called) :
    frameAt called.mem (below (t.csr .sscratch)) = state t := by
  obtain ⟨⟨distinct, within, whole⟩, -⟩ := orders_whole
  rw [calls.mem]
  exact frame_stored _ _ _ distinct within whole

/-- What `sret` gives back is the frame, whatever the handler left in it. -/
structure GivesBack (addr : Label → Word) (top : Word) (frame : TrapFrame) (r : Cpu) : Prop where
  regs : ∀ q : Reg, q ≠ 0 → r.get q = frame.x q
  sepc : r.csr .sepc = frame.sepc
  sstatus : r.csr .sstatus = frame.sstatus
  vector : r.csr .stvec = addr .user_trap_entry
  scratch : r.csr .sscratch = top

theorem Resumes.givesBack (resumes : Resumes addr (s.set t0 1) r)
    (frame : (s.set t0 1).get sp = below top) : GivesBack addr top (frameAt s.mem (below top)) r := by
  obtain ⟨regs, sepc, sstatus, scratch, vector, -⟩ := resumes
  rw [frame] at regs sepc sstatus scratch
  rw [Cpu.set_mem] at sepc sstatus
  refine ⟨fun q proper => ?_, sepc, sstatus, vector, scratch.trans (below_add_size top)⟩
  rw [regs q proper, Cpu.set_mem]
  rfl

/-- Trap save and restore is exact. From any interrupted state `user_trap_entry`
gets to the handler with the whole state in the frame below the trap-stack top,
and any answer but 1 gets to `sret` with the registers of the frame the handler
left, ready for the next trap at the same place. So in any run of traps a frame
that is left as it was gives back what was interrupted. `trap_entry` records
the same for the kernel's own traps. -/
theorem trap_round_trip (addr : Label → Word) (linked : Function.Injective addr) :
    (∀ t : Cpu, ClearOfAbi addr (t.csr .sscratch) → ∃ called rest,
      Flows addr program (program .user_trap_entry) t called (.call .rust_user_trap_handler rest) ∧
      frameAt called.mem (below (t.csr .sscratch)) = state t ∧
      called.get a0 = below (t.csr .sscratch) ∧
      called.get gp = load t.mem (addr .kernel_gp_saved) ∧
      called.get tp = load t.mem (addr .kernel_tp_saved) ∧
      called.csr .stvec = addr .trap_entry ∧
      ∀ answered, CAbi called answered → answered.get a0 ≠ 1 → ∃ r,
        Flows addr program rest answered r .sret ∧
        GivesBack addr (t.csr .sscratch) (frameAt answered.mem (below (t.csr .sscratch))) r) ∧
    (∀ top u m s crossings, ClearOfAbi addr top → Armed addr top u →
      Run (Crosses addr) (.user, u) crossings (m, s) → ∀ c ∈ crossings,
        Armed addr top c.interrupted ∧ frameAt c.called.mem (below top) = state c.interrupted ∧
        (c.answered.get a0 ≠ 1 →
          GivesBack addr top (frameAt c.answered.mem (below top)) c.after ∧
          (frameAt c.answered.mem (below top) = frameAt c.called.mem (below top) →
            (∀ q : Reg, c.after.get q = c.interrupted.get q) ∧
            c.after.csr .sepc = c.interrupted.csr .sepc ∧
            c.after.csr .sstatus = c.interrupted.csr .sstatus))) ∧
    ∀ t : Cpu, ∃ called rest,
      Flows addr program (program .trap_entry) t called (.call .rust_trap_handler rest) ∧
      frameAt called.mem (below (t.get sp)) = state t ∧ called.get a0 = below (t.get sp) := by
  refine ⟨fun t clear => ?_, ?_, fun t => ?_⟩
  · obtain ⟨called, calls, flows⟩ := user_trap_entry_calls t clear.1 clear.2
    refine ⟨called, afterHandler, flows, calls.frame, calls.argument, calls.gp, calls.tp,
      calls.vector, fun answered abi answer => ?_⟩
    obtain ⟨r, resumes, out⟩ := afterHandler_resumes addr answered answer
    refine ⟨r, out, resumes.givesBack ?_⟩
    rw [Cpu.get_set _ _ (by decide), if_neg (by decide), abi.regs sp (by decide), calls.stack]
  · intro top u m s crossings clear armed run c member
    obtain ⟨s', crossed⟩ := (run_crossed linked clear armed run).2 c member
    have held : frameAt c.called.mem (below top) = state c.interrupted := by
      rw [← crossed.interrupted.scratch]
      exact crossed.called.frame
    refine ⟨crossed.interrupted, held, fun answer => ?_⟩
    rcases crossed.ends with ⟨-, resumes, -⟩ | ⟨no, -⟩
    · have back := resumes.givesBack crossed.frame
      refine ⟨back, fun unmodified => ?_⟩
      rw [unmodified, held] at back
      refine ⟨fun q => ?_, back.sepc, back.sstatus⟩
      by_cases hardwired : q = 0
      · rw [hardwired, Cpu.get_zero, Cpu.get_zero]
      · exact back.regs q hardwired
    · exact absurd no answer
  · obtain ⟨called, mem, argument, flows⟩ := trap_entry_calls addr t
    obtain ⟨-, distinct, within, whole⟩ := orders_whole
    refine ⟨called, trap_entry_1, flows, ?_, argument⟩
    rw [mem]
    exact frame_stored _ _ _ distinct within whole

/-- One way the linker can lay the labels out. -/
def layout : Label → Word
  | .trap_entry => 0x80200000
  | .trap_entry_1 => 0x802000a0
  | .user_trap_entry => 0x802000b0
  | .restore_user_frame => 0x80200180
  | .terminate_process => 0x80200240
  | .run_user => 0x80200300
  | .run_task => 0x80200400
  | .rust_trap_handler => 0x80201000
  | .rust_user_trap_handler => 0x80202000
  | .kernel_context => 0x80300000
  | .kernel_gp_saved => 0x80300080
  | .kernel_tp_saved => 0x80300088

theorem layout_injective : Function.Injective layout := by
  intro first second same
  cases first <;> cases second <;> first | rfl | exact absurd same (by decide)

/-- A hart at a trap, with its trap stack and its own stack below the labels. -/
def trapped : Cpu where
  x q := q.val
  csr
    | .sscratch => 0x80200000
    | .stvec => layout .user_trap_entry
    | _ => 0x80100000
  mem _ := 0

theorem trap_round_trip_layout :
    (∃ called rest r,
      Flows layout program (program .user_trap_entry) trapped called (.call .rust_user_trap_handler rest) ∧
      Flows layout program rest (called.set a0 0) r .sret ∧ GivesBack layout 0x80200000 (state trapped) r) ∧
    (∃ c s', Crosses layout (.user, trapped) c s' ∧ (∀ q : Reg, c.after.get q = trapped.get q) ∧
      c.after.csr .sepc = trapped.csr .sepc ∧ c.after.csr .sstatus = trapped.csr .sstatus) ∧
    ∃ called rest, Flows layout program (program .trap_entry) trapped called (.call .rust_trap_handler rest) ∧
      frameAt called.mem (below (trapped.get sp)) = state trapped := by
  obtain ⟨fromUser, inRun, fromKernel⟩ := trap_round_trip layout layout_injective
  have clear : ClearOfAbi layout 0x80200000 := ⟨by decide, by decide⟩
  have armed : Armed layout 0x80200000 trapped := ⟨rfl, rfl⟩
  have silent (called : Cpu) : (called.set a0 0).get a0 ≠ 1 := by
    rw [Cpu.get_set _ _ (by decide), if_pos rfl]
    decide
  refine ⟨?_, ?_, ?_⟩
  · obtain ⟨called, rest, flows, frame, -, -, -, -, back⟩ := fromUser trapped clear
    obtain ⟨r, out, gives⟩ := back (called.set a0 0) (.answer called 0) (silent called)
    rw [Cpu.set_mem, frame] at gives
    exact ⟨called, rest, r, flows, out, gives⟩
  · obtain ⟨called, -, answers⟩ := traps_cross clear armed trapped rfl rfl
    obtain ⟨after, m, crosses⟩ := answers (called.set a0 0) (.answer called 0)
    obtain ⟨-, -, gives⟩ := inRun _ _ _ _ _ clear armed (.single crosses) _ (List.mem_singleton_self _)
    have same := (gives (silent called)).2 (by rw [Cpu.set_mem])
    exact ⟨_, _, crosses, same⟩
  · obtain ⟨called, rest, flows, frame, -⟩ := fromKernel trapped
    exact ⟨called, rest, flows, frame⟩

end Neonos.Assembly
