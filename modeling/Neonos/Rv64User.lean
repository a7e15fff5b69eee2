import Neonos.Rv64
import Neonos.Runs

/-! RV64 user code one instruction at a time. A listing has the lines behind
each label in the order of the file, and a place in it is the number of
instructions before it. What an environment call gives back is a parameter. -/
namespace Neonos.Rv64User
open Rv64 Rv64.Reg ByteMemory Runs

/-- The registers and the memory of user code. -/
structure Hart where
  x : Reg → BitVec 64
  zero : x 0 = 0
  mem : Memory

namespace Hart

/-- Writing a register; `zero` stays what it is. -/
def set (s : Hart) (r : Reg) (v : BitVec 64) : Hart where
  x q := if q = r ∧ r ≠ 0 then v else s.x q
  zero := (if_neg fun both => both.2 both.1.symm).trans s.zero
  mem := s.mem

def setMem (s : Hart) (m : Memory) : Hart := ⟨s.x, s.zero, m⟩

@[simp] theorem set_x (s : Hart) (r q : Reg) (v : BitVec 64) :
    (s.set r v).x q = if q = r ∧ r ≠ 0 then v else s.x q := by
  cases s; rfl

@[simp] theorem set_mem (s : Hart) (r : Reg) (v : BitVec 64) : (s.set r v).mem = s.mem := by
  cases s; rfl

@[simp] theorem setMem_x (s : Hart) (m : Memory) : (s.setMem m).x = s.x := by
  cases s; rfl

@[simp] theorem setMem_mem (s : Hart) (m : Memory) : (s.setMem m).mem = m := by
  cases s; rfl

theorem set_set (s : Hart) (r : Reg) (v w : BitVec 64) : (s.set r v).set r w = s.set r w := by
  have registers : ((s.set r v).set r w).x = (s.set r w).x := by
    funext q
    by_cases written : q = r ∧ r ≠ 0
    · simp [written]
    · simp only [set_x, if_neg written]
  unfold set at registers ⊢
  cases s
  congr

end Hart

inductive Instr (label : Type) where
  | li (rd : Reg) (imm : Int)
  | mv (rd rs : Reg)
  | addi (rd rs : Reg) (imm : Int)
  | add (rd rs₁ rs₂ : Reg)
  | mul (rd rs₁ rs₂ : Reg)
  | srli (rd rs : Reg) (shift : Nat)
  | ld (rd : Reg) (offset : Nat) (base : Reg)
  | sd (rs : Reg) (offset : Nat) (base : Reg)
  | beq (rs₁ rs₂ : Reg) (target : label)
  | bne (rs₁ rs₂ : Reg) (target : label)
  | bltu (rs₁ rs₂ : Reg) (target : label)
  | beqz (rs : Reg) (target : label)
  | bnez (rs : Reg) (target : label)
  | j (target : label)
  | ecall
  | illegal

namespace Instr

variable {label : Type}

/-- What an instruction does to registers and memory. -/
def run (s : Hart) : Instr label → Hart
  | .li rd imm => s.set rd (BitVec.ofInt 64 imm)
  | .mv rd rs => s.set rd (s.x rs)
  | .addi rd rs imm => s.set rd (s.x rs + BitVec.ofInt 64 imm)
  | .add rd rs₁ rs₂ => s.set rd (s.x rs₁ + s.x rs₂)
  | .mul rd rs₁ rs₂ => s.set rd (s.x rs₁ * s.x rs₂)
  | .srli rd rs shift => s.set rd (s.x rs >>> shift)
  | .ld rd offset base => s.set rd (load s.mem (s.x base + BitVec.ofNat 64 offset))
  | .sd rs offset base => s.setMem (store s.mem (s.x base + BitVec.ofNat 64 offset) (s.x rs))
  | _ => s

/-- Where it goes, when not to the next instruction. -/
def target (s : Hart) : Instr label → Option label
  | .beq rs₁ rs₂ l => if s.x rs₁ = s.x rs₂ then some l else none
  | .bne rs₁ rs₂ l => if s.x rs₁ ≠ s.x rs₂ then some l else none
  | .bltu rs₁ rs₂ l => if s.x rs₁ < s.x rs₂ then some l else none
  | .beqz rs l => if s.x rs = 0 then some l else none
  | .bnez rs l => if s.x rs ≠ 0 then some l else none
  | .j l => some l
  | _ => none

/-- Instructions that raise an exception. -/
def Traps : Instr label → Bool
  | .ecall | .illegal => true
  | _ => false

end Instr

abbrev Listing (label : Type) := List (label × List (Instr label))

namespace Listing

variable {label : Type}

def code (listing : Listing label) : List (Instr label) := listing.flatMap Prod.snd

/-- The place of a label. -/
def place [DecidableEq label] (listing : Listing label) (l : label) : Nat :=
  (code (listing.takeWhile fun block => block.1 ≠ l)).length

end Listing

/-! ### Running a listing -/

section running
variable {label : Type} [DecidableEq label] (listing : Listing label)
  (answers : BitVec 64 → BitVec 64 → Option (BitVec 64))

/-- The instruction at a place: the next place and what the hart holds there.
An environment call gives `a0` its answer to the number and the argument. -/
def step (c : Nat × Hart) : Option (Nat × Hart) :=
  match listing.code[c.1]? with
  | none | some .illegal => none
  | some .ecall => (answers (c.2.x a7) (c.2.x a0)).map fun result => (c.1 + 1, c.2.set a0 result)
  | some i => some (((i.target c.2).map listing.place).getD (c.1 + 1), i.run c.2)

/-- One instruction, under the place it is at. -/
def Steps (c : Nat × Hart) (k : Nat) (c' : Nat × Hart) : Prop := c.1 = k ∧ step listing answers c = some c'

variable {listing answers} {s : Hart} {k : Nat} {i : Instr label} {c c' : Nat × Hart} {ks : List Nat}

theorem step_plain (here : listing.code[k]? = some i) (plain : i.Traps = false) :
    step listing answers (k, s) = some (((i.target s).map listing.place).getD (k + 1), i.run s) := by
  unfold step
  simp only [here]
  cases i <;> first | rfl | cases plain

/-- Everything a step can be: an instruction, or a call that is answered. -/
theorem steps_cases (step : Steps listing answers c k c') :
    (∃ i, listing.code[k]? = some i ∧ i.Traps = false ∧
      c' = (((i.target c.2).map listing.place).getD (k + 1), i.run c.2)) ∨
    ∃ result, listing.code[k]? = some .ecall ∧ answers (c.2.x a7) (c.2.x a0) = some result ∧
      c' = (k + 1, c.2.set a0 result) := by
  obtain ⟨rfl, stepped⟩ := step
  cases here : listing.code[c.1]? with
  | none =>
    simp only [Rv64User.step, here] at stepped
    cases stepped
  | some i =>
    by_cases plain : i.Traps = false
    · exact .inl ⟨i, rfl, plain, Option.some.inj (stepped.symm.trans (step_plain here plain))⟩
    · cases i with
      | ecall =>
        simp only [Rv64User.step, here, Option.map_eq_some_iff] at stepped
        obtain ⟨result, answered, rfl⟩ := stepped
        exact .inr ⟨result, rfl, answered, rfl⟩
      | illegal =>
        simp only [Rv64User.step, here] at stepped
        cases stepped
      | _ => exact absurd rfl plain

theorem goes (here : listing.code[k]? = some i) (plain : i.Traps = false) (straight : i.target s = none)
    (rest : Run (Steps listing answers) (k + 1, i.run s) ks c) :
    Run (Steps listing answers) (k, s) (k :: ks) c := by
  refine .cons ⟨rfl, step_plain here plain⟩ ?_
  rw [straight]
  exact rest

theorem jumps {l : label} (here : listing.code[k]? = some i) (plain : i.Traps = false)
    (taken : i.target s = some l) (rest : Run (Steps listing answers) (listing.place l, i.run s) ks c) :
    Run (Steps listing answers) (k, s) (k :: ks) c := by
  refine .cons ⟨rfl, step_plain here plain⟩ ?_
  rw [taken]
  exact rest

theorem asks (here : listing.code[k]? = some .ecall) (answered : answers (s.x a7) (s.x a0) = some result)
    (rest : Run (Steps listing answers) (k + 1, s.set a0 result) ks c) :
    Run (Steps listing answers) (k, s) (k :: ks) c := by
  refine .cons ⟨rfl, ?_⟩ rest
  unfold step
  simp only [here, answered, Option.map_some]

theorem minus_one (n : Nat) : BitVec.ofNat 64 (n + 1) + BitVec.ofInt 64 (-1) = BitVec.ofNat 64 n := by
  have ones : BitVec.ofInt 64 (-1) = BitVec.ofNat 64 (2 ^ 64 - 1) := by decide
  rw [ones, ← BitVec.ofNat_add]
  apply BitVec.eq_of_toNat_eq
  simp only [BitVec.toNat_ofNat]
  omega

variable (answers) in
/-- A register counted down to zero and nothing else. -/
theorem countdown {l : label} {r : Reg} (proper : r ≠ 0) (here : listing.code[k]? = some (.addi r r (-1)))
    (back : listing.code[k + 1]? = some (.bnez r l)) (top : listing.place l = k) (n : Nat) (s : Hart)
    (fits : n + 1 < 2 ^ 64) (value : s.x r = BitVec.ofNat 64 (n + 1)) :
    ∃ ks, Run (Steps listing answers) (k, s) ks (k + 2, s.set r 0) ∧ (∀ j ∈ ks, j = k ∨ j = k + 1) ∧
      ks.length = 2 * (n + 1) := by
  induction n generalizing s with
  | zero =>
    have lowered : Instr.run s (.addi r r (-1) : Instr label) = s.set r 0 :=
      congrArg (s.set r) ((congrArg (· + _) value).trans (minus_one 0))
    refine ⟨[k, k + 1], goes here rfl rfl (goes back rfl ?_ ?_), by simp, rfl⟩
    · rw [lowered]
      exact if_neg (by simp [proper])
    · rw [lowered]
      exact .nil
  | succ n ih =>
    have lowered : Instr.run s (.addi r r (-1) : Instr label) = s.set r (BitVec.ofNat 64 (n + 1)) :=
      congrArg (s.set r) ((congrArg (· + _) value).trans (minus_one (n + 1)))
    have now : (s.set r (BitVec.ofNat 64 (n + 1))).x r = BitVec.ofNat 64 (n + 1) := by simp [proper]
    have positive : BitVec.ofNat 64 (n + 1) ≠ 0 := by
      intro zero
      have small : (n + 1) % 2 ^ 64 = 0 := congrArg BitVec.toNat zero
      omega
    obtain ⟨ks, rest, places, length⟩ := ih (s.set r (BitVec.ofNat 64 (n + 1))) (by omega) now
    rw [Hart.set_set] at rest
    refine ⟨k :: (k + 1) :: ks, goes here rfl rfl (jumps (l := l) back rfl ?_ ?_), ?_, ?_⟩
    · rw [lowered]
      exact if_pos (now.trans_ne positive)
    · rw [lowered, top]
      exact rest
    · intro j member
      rcases List.mem_cons.mp member with rfl | later
      · exact .inl rfl
      rcases List.mem_cons.mp later with rfl | later
      · exact .inr rfl
      · exact places j later
    · rw [List.length_cons, List.length_cons, length]
      omega

end running

/-! ### Code that keeps to one word of memory -/

/-- Harts with the same registers and the same word at the stack pointer. -/
structure Alike (s t : Hart) : Prop where
  x : s.x = t.x
  word : load s.mem (s.x sp) = load t.mem (t.x sp)

/-- The instruction leaves the stack pointer alone and touches no memory but
the word there. -/
def Instr.OwnWord {label : Type} : Instr label → Bool
  | .li rd _ | .mv rd _ | .addi rd .. | .add rd .. | .mul rd .. | .srli rd .. => rd ≠ sp
  | .ld rd offset base => rd ≠ sp ∧ offset = 0 ∧ base = sp
  | .sd _ offset base => offset = 0 ∧ base = sp
  | _ => true

section alike
variable {label : Type} {s t : Hart} {i : Instr label}

theorem Alike.set (alike : Alike s t) {r : Reg} (other : r ≠ sp) (v : BitVec 64) :
    Alike (s.set r v) (t.set r v) := by
  refine ⟨funext fun q => ?_, ?_⟩
  · rw [Hart.set_x, Hart.set_x, alike.x]
  · rw [Hart.set_mem, Hart.set_mem, Hart.set_x, Hart.set_x, if_neg fun both => other both.1.symm,
      if_neg fun both => other both.1.symm]
    exact alike.word

theorem Alike.target (alike : Alike s t) : i.target s = i.target t := by
  cases i <;> simp only [Instr.target, alike.x]

/-- Such an instruction cannot tell them apart. -/
theorem Alike.run (alike : Alike s t) (own : i.OwnWord = true) : Alike (i.run s) (i.run t) := by
  cases i with
  | li rd | mv rd | addi rd | add rd | mul rd | srli rd =>
    simp only [Instr.run, alike.x]
    exact alike.set (of_decide_eq_true own) _
  | ld rd offset base =>
    obtain ⟨other, rfl, rfl⟩ := of_decide_eq_true own
    have same : load s.mem (s.x sp + BitVec.ofNat 64 0) = load t.mem (t.x sp + BitVec.ofNat 64 0) := by
      simpa using alike.word
    simp only [Instr.run, same]
    exact alike.set other _
  | sd rs offset base =>
    obtain ⟨rfl, rfl⟩ := of_decide_eq_true own
    simp only [Instr.run]
    refine ⟨by simp [alike.x], ?_⟩
    simp [load_store_same, alike.x]
  | beq | bne | bltu | beqz | bnez | j | ecall | illegal => exact alike

theorem Instr.OwnWord.stack (own : i.OwnWord = true) : (i.run s).x sp = s.x sp := by
  cases i with
  | li rd | mv rd | addi rd | add rd | mul rd | srli rd =>
    have other : rd ≠ sp := of_decide_eq_true own
    simp [Instr.run, other.symm]
  | ld rd =>
    have other : rd ≠ sp := (of_decide_eq_true own).1
    simp [Instr.run, other.symm]
  | sd | beq | bne | bltu | beqz | bnez | j | ecall | illegal => rfl

/-- What lies apart from the word stays. -/
theorem Instr.OwnWord.frame (own : i.OwnWord = true) {a : BitVec 64} (apart : Apart (s.x sp) a) :
    load (i.run s).mem a = load s.mem a := by
  cases i with
  | sd rs offset base =>
    obtain ⟨rfl, rfl⟩ := of_decide_eq_true own
    refine load_store_apart ?_
    simpa using apart
  | _ => rfl

end alike

end Neonos.Rv64User
