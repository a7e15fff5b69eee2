import Neonos.ByteMemory

/-! The RV64 instructions of trap and context-switch code, over programs whose
labels have addresses. A routine is a list of instructions: straight lines of
them are run at once, saving and loading registers in blocks. CSR writes keep
the value they are given; fields that hardware would mask are not modelled. -/
namespace Neonos.Rv64
open ByteMemory

abbrev Reg := Fin 32

instance Reg.nonempty : NeZero 32 := ⟨by decide⟩

namespace Reg

abbrev zero : Reg := 0
abbrev ra : Reg := 1
abbrev sp : Reg := 2
abbrev gp : Reg := 3
abbrev tp : Reg := 4
abbrev t0 : Reg := 5
abbrev t1 : Reg := 6
abbrev t2 : Reg := 7
abbrev s0 : Reg := 8
abbrev s1 : Reg := 9
abbrev a0 : Reg := 10
abbrev a1 : Reg := 11
abbrev a2 : Reg := 12
abbrev a3 : Reg := 13
abbrev a4 : Reg := 14
abbrev a5 : Reg := 15
abbrev a6 : Reg := 16
abbrev a7 : Reg := 17
abbrev s2 : Reg := 18
abbrev s3 : Reg := 19
abbrev s4 : Reg := 20
abbrev s5 : Reg := 21
abbrev s6 : Reg := 22
abbrev s7 : Reg := 23
abbrev s8 : Reg := 24
abbrev s9 : Reg := 25
abbrev s10 : Reg := 26
abbrev s11 : Reg := 27
abbrev t3 : Reg := 28
abbrev t4 : Reg := 29
abbrev t5 : Reg := 30
abbrev t6 : Reg := 31

attribute [simp] zero ra sp gp tp t0 t1 t2 s0 s1 a0 a1 a2 a3 a4 a5 a6 a7 s2 s3 s4 s5 s6 s7 s8 s9 s10
  s11 t3 t4 t5 t6

end Reg

inductive Csr where
  | sstatus
  | sepc
  | scause
  | stval
  | sscratch
  | stvec
  deriving DecidableEq

structure Cpu where
  x : Reg → BitVec 64
  csr : Csr → BitVec 64
  mem : Memory

namespace Cpu

/-- Reading a register; `zero` reads as zero whatever was written to it. -/
def get (s : Cpu) (r : Reg) : BitVec 64 := if r = 0 then 0 else s.x r

def set (s : Cpu) (r : Reg) (v : BitVec 64) : Cpu := { s with x := Function.update s.x r v }

def setCsr (s : Cpu) (c : Csr) (v : BitVec 64) : Cpu := { s with csr := Function.update s.csr c v }

def setMem (s : Cpu) (m : Memory) : Cpu := { s with mem := m }

@[simp] theorem get_zero (s : Cpu) : s.get 0 = 0 := if_pos rfl

theorem get_set (s : Cpu) (v : BitVec 64) (proper : r ≠ 0) :
    (s.set r v).get q = if q = r then v else s.get q := by
  by_cases same : q = r
  · subst same
    simp [get, set, proper]
  · simp [get, set, same]

-- These are not `rfl` lemmas on purpose: a definitional check that fails on the
-- way would start to unfold memory.
@[simp] theorem set_csr (s : Cpu) (r : Reg) (v : BitVec 64) : (s.set r v).csr = s.csr := by
  cases s; rfl

@[simp] theorem set_mem (s : Cpu) (r : Reg) (v : BitVec 64) : (s.set r v).mem = s.mem := by
  cases s; rfl

@[simp] theorem setCsr_get (s : Cpu) (c : Csr) (v : BitVec 64) : (s.setCsr c v).get r = s.get r := by
  cases s; rfl

@[simp] theorem setCsr_mem (s : Cpu) (c : Csr) (v : BitVec 64) : (s.setCsr c v).mem = s.mem := by
  cases s; rfl

@[simp] theorem setCsr_csr (s : Cpu) (c : Csr) (v : BitVec 64) :
    (s.setCsr c v).csr = Function.update s.csr c v := by
  cases s; rfl

@[simp] theorem setMem_get (s : Cpu) (m : Memory) : (s.setMem m).get r = s.get r := by
  cases s; rfl

@[simp] theorem setMem_csr (s : Cpu) (m : Memory) : (s.setMem m).csr = s.csr := by
  cases s; rfl

@[simp] theorem setMem_mem (s : Cpu) (m : Memory) : (s.setMem m).mem = m := by
  cases s; rfl

end Cpu

inductive Instr (label : Type) where
  | addi (rd rs : Reg) (imm : Int)
  | li (rd : Reg) (imm : Int)
  | mv (rd rs : Reg)
  | la (rd : Reg) (symbol : label)
  | ld (rd : Reg) (offset : Nat) (base : Reg)
  | sd (rs : Reg) (offset : Nat) (base : Reg)
  | csrr (rd : Reg) (c : Csr)
  | csrw (c : Csr) (rs : Reg)
  | csrrw (rd : Reg) (c : Csr) (rs : Reg)
  | wfi
  | beq (rs₁ rs₂ : Reg) (target : label)
  | j (target : label)
  | call (target : label)
  | ret
  | sret

/-- Where the control goes at the end of a stretch of code. A call keeps the
code to go on with after it returns. -/
inductive Exit (label : Type) where
  | off
  | jump (target : label)
  | call (target : label) (rest : List (Instr label))
  | ret
  | sret

variable {label : Type} {addr : label → BitVec 64}

/-- What an instruction other than a control transfer does. -/
def Instr.run (addr : label → BitVec 64) (s : Cpu) : Instr label → Cpu
  | .addi rd rs imm => s.set rd (s.get rs + BitVec.ofInt 64 imm)
  | .li rd imm => s.set rd (BitVec.ofInt 64 imm)
  | .mv rd rs => s.set rd (s.get rs)
  | .la rd symbol => s.set rd (addr symbol)
  | .ld rd offset base => s.set rd (load s.mem (s.get base + BitVec.ofNat 64 offset))
  | .sd rs offset base => s.setMem (store s.mem (s.get base + BitVec.ofNat 64 offset) (s.get rs))
  | .csrr rd c => s.set rd (s.csr c)
  | .csrw c rs => s.setCsr c (s.get rs)
  | .csrrw rd c rs => (s.setCsr c (s.get rs)).set rd (s.csr c)
  | _ => s

/-- Instructions that fall through to the next one. -/
def Instr.Plain : Instr label → Bool
  | .beq .. | .j _ | .call _ | .ret | .sret => false
  | _ => true

/-- Running code up to its first control transfer. The return address a call
leaves in `ra` is the callee's to overwrite and is not kept. -/
def exec (addr : label → BitVec 64) : List (Instr label) → Cpu → Cpu × Exit label
  | [], s => (s, .off)
  | .beq rs₁ rs₂ target :: rest, s =>
    if s.get rs₁ = s.get rs₂ then (s, .jump target) else exec addr rest s
  | .j target :: _, s => (s, .jump target)
  | .call target :: rest, s => (s, .call target rest)
  | .ret :: _, s => (s, .ret)
  | .sret :: _, s => (s, .sret)
  | i :: rest, s => exec addr rest (i.run addr s)

/-- Running code across its jumps, up to a call, a return or the way to user mode. -/
inductive Flows (addr : label → BitVec 64) (program : label → List (Instr label)) :
    List (Instr label) → Cpu → Cpu → Exit label → Prop where
  | here (ran : exec addr code s = (t, exit)) (stops : ∀ target, exit ≠ .jump target) :
      Flows addr program code s t exit
  | jump (ran : exec addr code s = (m, .jump target))
      (rest : Flows addr program (program target) m t exit) : Flows addr program code s t exit

theorem Flows.once {program : label → List (Instr label)} (first : Flows addr program code s t exit)
    (second : Flows addr program code s t' exit') : t = t' ∧ exit = exit' := by
  induction first with
  | here ran stops =>
    cases second with
    | here ran' => exact Prod.mk.inj (ran.symm.trans ran')
    | jump ran' => exact absurd (Prod.mk.inj (ran.symm.trans ran')).2 (stops _)
  | jump ran _ ih =>
    cases second with
    | here ran' stops => exact absurd (Prod.mk.inj (ran'.symm.trans ran)).2 (stops _)
    | jump ran' rest =>
      obtain ⟨rfl, same⟩ := Prod.mk.inj (ran.symm.trans ran')
      cases same
      exact ih rest

/-! ### Straight lines -/

/-- A straight line of plain instructions. -/
def line (addr : label → BitVec 64) (block : List (Instr label)) (s : Cpu) : Cpu :=
  block.foldl (Instr.run addr) s

@[simp] theorem line_nil (s : Cpu) : line addr [] s = s := rfl

@[simp] theorem line_cons (i : Instr label) (block : List (Instr label)) (s : Cpu) :
    line addr (i :: block) s = line addr block (i.run addr s) := rfl

theorem line_append (first second : List (Instr label)) (s : Cpu) :
    line addr (first ++ second) s = line addr second (line addr first s) := by
  simp [line, List.foldl_append]

theorem exec_line (block rest : List (Instr label)) (plain : block.all Instr.Plain = true) (s : Cpu) :
    exec addr (block ++ rest) s = exec addr rest (line addr block s) := by
  induction block generalizing s with
  | nil => rfl
  | cons i block ih =>
    simp only [List.all_cons, Bool.and_eq_true] at plain
    obtain ⟨first, others⟩ := plain
    rw [line_cons, ← ih others]
    cases i <;> first | rfl | cases first

/-- The register an instruction writes. -/
def Instr.rd : Instr label → Option Reg
  | .addi rd .. | .li rd _ | .mv rd _ | .la rd _ | .ld rd .. | .csrr rd _ | .csrrw rd .. => some rd
  | _ => none

/-- The CSR an instruction writes. -/
def Instr.csrOut : Instr label → Option Csr
  | .csrw c _ | .csrrw _ c _ => some c
  | _ => none

def Instr.Stores : Instr label → Bool
  | .sd .. => true
  | _ => false

/-- A register no instruction of a line writes is the same after it. -/
theorem line_get (block : List (Instr label)) (s : Cpu) (proper : ∀ i ∈ block, i.rd ≠ some 0)
    (apart : ∀ i ∈ block, i.rd ≠ some r) : (line addr block s).get r = s.get r := by
  induction block generalizing s with
  | nil => rfl
  | cons i block ih =>
    rw [line_cons, ih _ (fun j later => proper j (List.mem_cons_of_mem i later))
      (fun j later => apart j (List.mem_cons_of_mem i later))]
    have goes (q : Reg) (writes : i.rd = some q) (v : BitVec 64) (s : Cpu) :
        (s.set q v).get r = s.get r := by
      have notZero : q ≠ 0 := by
        rintro rfl
        exact proper i List.mem_cons_self writes
      have notThis : r ≠ q := by
        rintro rfl
        exact apart i List.mem_cons_self writes
      rw [Cpu.get_set s v notZero, if_neg notThis]
    cases i with
    | addi rd | li rd | mv rd | la rd | ld rd | csrr rd => exact goes rd rfl _ _
    | csrrw rd c rs => exact (goes rd rfl _ _).trans (Cpu.setCsr_get s c (s.get rs))
    | csrw c rs => exact Cpu.setCsr_get s c (s.get rs)
    | sd rs offset base => exact Cpu.setMem_get s _
    | wfi | beq | j | call | ret | sret => rfl

/-- A line without stores leaves memory alone. -/
theorem line_mem (addr : label → BitVec 64) (block : List (Instr label)) (s : Cpu) (silent : ∀ i ∈ block, i.Stores = false) :
    (line addr block s).mem = s.mem := by
  induction block generalizing s with
  | nil => rfl
  | cons i block ih =>
    rw [line_cons, ih _ (fun j later => silent j (List.mem_cons_of_mem i later))]
    have now := silent i List.mem_cons_self
    cases i with
    | addi | li | mv | la | ld | csrr => exact Cpu.set_mem s _ _
    | csrrw rd c rs => exact (Cpu.set_mem _ _ _).trans (Cpu.setCsr_mem s c (s.get rs))
    | csrw c rs => exact Cpu.setCsr_mem s c (s.get rs)
    | sd => cases now
    | wfi | beq | j | call | ret | sret => rfl

/-- A CSR no instruction of a line writes is the same after it. -/
theorem line_csr (block : List (Instr label)) (s : Cpu) (apart : ∀ i ∈ block, i.csrOut ≠ some c) :
    (line addr block s).csr c = s.csr c := by
  induction block generalizing s with
  | nil => rfl
  | cons i block ih =>
    rw [line_cons, ih _ (fun j later => apart j (List.mem_cons_of_mem i later))]
    have other (d : Csr) (writes : i.csrOut = some d) (v : BitVec 64) :
        Function.update s.csr d v c = s.csr c := by
      apply Function.update_of_ne
      rintro rfl
      exact apart i List.mem_cons_self writes
    cases i with
    | addi | li | mv | la | ld | csrr => rw [Instr.run, Cpu.set_csr]
    | csrrw rd d rs =>
      rw [Instr.run, Cpu.set_csr, Cpu.setCsr_csr]
      exact other d rfl (s.get rs)
    | csrw d rs =>
      rw [Instr.run, Cpu.setCsr_csr]
      exact other d rfl (s.get rs)
    | sd => rw [Instr.run, Cpu.setMem_csr]
    | wfi | beq | j | call | ret | sret => rfl

/-! ### Blocks of saves and loads -/

/-- Saves of registers to doublewords above a base register. -/
def saves (base : Reg) (block : List (Reg × Nat)) : List (Instr label) :=
  block.map fun (r, k) => .sd r (8 * k) base

/-- Loads of registers from doublewords above a base register. -/
def loads (base : Reg) (block : List (Reg × Nat)) : List (Instr label) :=
  block.map fun (r, k) => .ld r (8 * k) base

/-- A block of saves writes the registers to their slots and does nothing else. -/
theorem line_saves (addr : label → BitVec 64) (base : Reg) (block : List (Reg × Nat)) (s : Cpu) (value : Nat → BitVec 64)
    (values : ∀ save ∈ block, s.get save.1 = value save.2) :
    (line addr (saves base block) s).mem =
        storeSlots s.mem (s.get base) value (block.map Prod.snd) ∧
      (line addr (saves base block) s).csr = s.csr ∧
      ∀ r, (line addr (saves base block) s).get r = s.get r := by
  induction block generalizing s with
  | nil => exact ⟨rfl, rfl, fun _ => rfl⟩
  | cons save block ih =>
    have now : s.get save.1 = value save.2 := values save List.mem_cons_self
    obtain ⟨mem, csr, regs⟩ := ih (s.setMem (store s.mem (slot (s.get base) save.2) (value save.2)))
      fun later member => values later (List.mem_cons_of_mem _ member)
    rw [← now] at mem csr regs
    rw [Cpu.setMem_mem] at mem
    refine ⟨mem.trans ?_, csr.trans (Cpu.setMem_csr _ _), fun r => (regs r).trans (Cpu.setMem_get _ _)⟩
    rw [Cpu.setMem_get, now]
    rfl

/-- A block of loads fills its registers from their slots and does nothing else. -/
theorem line_loads (addr : label → BitVec 64) (base : Reg) (block : List (Reg × Nat)) (s : Cpu)
    (distinct : (block.map Prod.fst).Nodup) (apart : base ∉ block.map Prod.fst)
    (proper : (0 : Reg) ∉ block.map Prod.fst) :
    (line addr (loads base block) s).mem = s.mem ∧ (line addr (loads base block) s).csr = s.csr ∧
      (∀ fill ∈ block,
        (line addr (loads base block) s).get fill.1 = load s.mem (slot (s.get base) fill.2)) ∧
      ∀ r, r ∉ block.map Prod.fst → (line addr (loads base block) s).get r = s.get r := by
  induction block generalizing s with
  | nil => exact ⟨rfl, rfl, by simp, fun _ _ => rfl⟩
  | cons first block ih =>
    obtain ⟨r, k⟩ := first
    simp only [List.map_cons, List.nodup_cons, List.mem_cons, not_or] at distinct apart proper
    have set_ (q : Reg) := Cpu.get_set s (r := r) (q := q) (load s.mem (slot (s.get base) k))
      (Ne.symm proper.1)
    have held : (s.set r (load s.mem (slot (s.get base) k))).get base = s.get base := by
      rw [set_, if_neg apart.1]
    obtain ⟨mem, csr, filled, kept⟩ :=
      ih (s.set r (load s.mem (slot (s.get base) k))) distinct.2 apart.2 proper.2
    refine ⟨mem, csr, ?_, ?_⟩
    · intro fill member
      rcases List.mem_cons.mp member with rfl | later
      · refine (kept r distinct.1).trans ?_
        rw [set_, if_pos rfl]
      · refine (filled fill later).trans ?_
        rw [held, Cpu.set_mem]
    · intro q outside
      simp only [List.map_cons, List.mem_cons, not_or] at outside
      refine (kept q outside.2).trans ?_
      rw [set_, if_neg outside.1]

end Neonos.Rv64
