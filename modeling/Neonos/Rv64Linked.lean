import Neonos.Inevitable
import Neonos.Rv64User

/-! RV64 code at the addresses a linker gave it: the instructions of user code
with calls, returns, addresses of symbols and stores of bytes. How long an
instruction is stays open, as long as every one lies behind the one before. -/
namespace Neonos.Rv64Linked
open Rv64 (Reg)
open Rv64.Reg Rv64User ByteMemory

/-- Memory after a byte has been stored. -/
def storeByte (m : Memory) (a v : BitVec 64) : Memory := Function.update m a (v.setWidth 8)

inductive Op (label : Type) where
  | plain (i : Instr label)
  | la (rd : Reg) (symbol : label)
  | sb (rs : Reg) (offset : Nat) (base : Reg)
  | bgeu (rs₁ rs₂ : Reg) (target : label)
  | call (target : label)
  | ret
  | wfi

variable {label : Type}

namespace Op

@[match_pattern] def li (rd : Reg) (imm : Int) : Op label := plain (.li rd imm)
@[match_pattern] def addi (rd rs : Reg) (imm : Int) : Op label := plain (.addi rd rs imm)
@[match_pattern] def ld (rd : Reg) (offset : Nat) (base : Reg) : Op label := plain (.ld rd offset base)
@[match_pattern] def sd (rs : Reg) (offset : Nat) (base : Reg) : Op label := plain (.sd rs offset base)
@[match_pattern] def bne (rs₁ rs₂ : Reg) (target : label) : Op label := plain (.bne rs₁ rs₂ target)
@[match_pattern] def beqz (rs : Reg) (target : label) : Op label := plain (.beqz rs target)
@[match_pattern] def bnez (rs : Reg) (target : label) : Op label := plain (.bnez rs target)
@[match_pattern] def j (target : label) : Op label := plain (.j target)
@[match_pattern] def ecall : Op label := plain .ecall
@[match_pattern] def illegal : Op label := plain .illegal

/-- What an instruction does to registers and memory; `next` is the address behind it. -/
def run (addr : label → BitVec 64) (next : BitVec 64) (s : Hart) : Op label → Hart
  | .plain i => i.run s
  | .la rd symbol => s.set rd (addr symbol)
  | .sb rs offset base => s.setMem (storeByte s.mem (s.x base + BitVec.ofNat 64 offset) (s.x rs))
  | .call _ => s.set ra next
  | _ => s

/-- The address it goes to. A return clears the lowest bit. -/
def goes (addr : label → BitVec 64) (next : BitVec 64) (s : Hart) : Op label → BitVec 64
  | .plain i => ((i.target s).map addr).getD next
  | .bgeu rs₁ rs₂ target => if s.x rs₂ ≤ s.x rs₁ then addr target else next
  | .call target => addr target
  | .ret => s.x ra &&& ~~~1
  | _ => next

/-- Instructions that raise an exception. -/
def Traps : Op label → Bool
  | .plain i => i.Traps
  | _ => false

/-- Instructions that always go on to the next one. -/
def Straight : Op label → Bool
  | .plain (.li ..) | .plain (.mv ..) | .plain (.addi ..) | .plain (.add ..) | .plain (.mul ..)
  | .plain (.srli ..) | .plain (.ld ..) | .plain (.sd ..) | .la .. | .sb .. | .wfi => true
  | _ => false

end Op

/-- Linked code: the addresses of the symbols, and at an address the
instruction there with the address behind it. -/
structure Code (label : Type) where
  addr : label → BitVec 64
  fetch : BitVec 64 → Option (Op label × BitVec 64)

/-- The program counter and the hart. -/
abbrev Core := BitVec 64 × Hart

namespace Code
variable (code : Code label)

/-- One instruction, unless it raises an exception. -/
def step (c : Core) : Option Core :=
  match code.fetch c.1 with
  | some (op, next) => if op.Traps then none else some (op.goes code.addr next c.2, op.run code.addr next c.2)
  | none => none

def Steps (c d : Core) : Prop := code.step c = some d

/-- These instructions lie from one address up to another. -/
def Lies : BitVec 64 → List (Op label) → BitVec 64 → Prop
  | pc, [], stop => pc = stop
  | pc, op :: ops, stop => ∃ next, code.fetch pc = some (op, next) ∧ pc < next ∧ Lies next ops stop

/-- Where a listing goes on: at its first label, or at its end. -/
def front (listing : List (label × List (Op label))) (stop : BitVec 64) : BitVec 64 :=
  match listing with
  | [] => stop
  | (l, _) :: _ => code.addr l

/-- The blocks of a listing lie behind each other, each from its label on. -/
def Holds : List (label × List (Op label)) → BitVec 64 → Prop
  | [], _ => True
  | (l, ops) :: rest, stop => code.Lies (code.addr l) ops (code.front rest stop) ∧ Holds rest stop

end Code

/-! ### Running it -/

section running
variable {code : Code label} {pc next stop : BitVec 64} {op : Op label} {ops rest : List (Op label)} {s : Hart}
  {goal : Core → Prop}

theorem Code.step_fetch (here : code.fetch pc = some (op, next)) (plain : op.Traps = false) :
    code.step (pc, s) = some (op.goes code.addr next s, op.run code.addr next s) := by
  unfold Code.step
  simp only [here, plain, Bool.false_eq_true, if_false]

/-- The instruction at hand, wherever it goes. -/
theorem Code.goesOn (here : code.fetch pc = some (op, next)) (plain : op.Traps = false)
    (after : Inevitably code.Steps goal (op.goes code.addr next s, op.run code.addr next s)) :
    Inevitably code.Steps goal (pc, s) := by
  have stepped : code.step (pc, s) = _ := code.step_fetch here plain
  exact .once stepped (fun u other => Option.some.inj (other.symm.trans stepped)) after

theorem Code.falls {i : Instr label} (here : code.fetch pc = some (.plain i, next)) (plain : i.Traps = false)
    (straight : i.target s = none) (after : Inevitably code.Steps goal (next, i.run s)) :
    Inevitably code.Steps goal (pc, s) := by
  refine code.goesOn here plain ?_
  rw [Op.goes, straight]
  exact after

theorem Code.jumps {i : Instr label} {l : label} (here : code.fetch pc = some (.plain i, next))
    (plain : i.Traps = false) (taken : i.target s = some l)
    (after : Inevitably code.Steps goal (code.addr l, i.run s)) : Inevitably code.Steps goal (pc, s) := by
  refine code.goesOn here plain ?_
  rw [Op.goes, taken]
  exact after

theorem Op.straight_plain (straight : op.Straight = true) : op.Traps = false := by
  cases op with
  | plain i => cases i <;> first | rfl | cases straight
  | _ => rfl

theorem Op.straight_goes (straight : op.Straight = true) (addr : label → BitVec 64) (next : BitVec 64) (s : Hart) :
    op.goes addr next s = next := by
  cases op with
  | plain i => cases i <;> first | rfl | cases straight
  | la | sb | wfi => rfl
  | bgeu | call | ret => cases straight

/-- A straight line of instructions. -/
def Code.line (code : Code label) (block : List (Op label)) (s : Hart) : Hart :=
  block.foldl (fun s op => op.run code.addr 0 s) s

theorem Op.straight_run (straight : op.Straight = true) (addr : label → BitVec 64) (next : BitVec 64) (s : Hart) :
    op.run addr next s = op.run addr 0 s := by
  cases op with
  | call => cases straight
  | _ => rfl

theorem Code.Lies.le (lies : code.Lies pc ops stop) : pc ≤ stop := by
  induction ops generalizing pc with
  | nil =>
    rw [show pc = stop from lies]
    exact BitVec.le_refl _
  | cons op ops ih =>
    obtain ⟨next, -, before, lies⟩ := lies
    exact BitVec.le_trans (BitVec.le_of_lt before) (ih lies)

/-- These instructions lie from `pc` up to `after`, inside a program. -/
structure Code.Within (code : Code label) (start stop pc : BitVec 64) (ops : List (Op label)) (after : BitVec 64) :
    Prop where
  low : start ≤ pc
  lies : code.Lies pc ops after
  high : after ≤ stop

variable {start after : BitVec 64}

theorem Code.Within.fetch (within : code.Within start stop pc (op :: ops) after) :
    ∃ next, code.fetch pc = some (op, next) ∧ pc < next ∧ next ≤ stop ∧ code.Within start stop next ops after := by
  obtain ⟨low, ⟨next, here, before, lies⟩, high⟩ := within
  exact ⟨next, here, before, BitVec.le_trans lies.le high,
    BitVec.le_trans low (BitVec.le_of_lt before), lies, high⟩

/-- A straight line of a program. -/
theorem Code.Within.line (ops : List (Op label)) (within : code.Within start stop pc (ops ++ rest) after) (straight : ops.all Op.Straight = true)
    (goesOn : ∀ next, code.Within start stop next rest after → Inevitably code.Steps goal (next, code.line ops s)) :
    Inevitably code.Steps goal (pc, s) := by
  induction ops generalizing pc s with
  | nil => exact goesOn pc within
  | cons op ops ih =>
    obtain ⟨next, here, -, -, within⟩ := Code.Within.fetch within
    simp only [List.all_cons, Bool.and_eq_true] at straight
    obtain ⟨first, others⟩ := straight
    refine code.goesOn here (Op.straight_plain first) ?_
    rw [Op.straight_goes first, Op.straight_run first]
    exact ih within others goesOn

/-- A branch of a program that is not taken. -/
theorem Code.Within.falls {i : Instr label} (within : code.Within start stop pc (.plain i :: rest) after)
    (plain : i.Traps = false) (straight : i.target s = none)
    (goesOn : ∀ next, code.Within start stop next rest after → Inevitably code.Steps goal (next, i.run s)) :
    Inevitably code.Steps goal (pc, s) := by
  obtain ⟨next, here, -, -, within⟩ := within.fetch
  exact Code.falls here plain straight (goesOn next within)

/-- A straight line up to the block behind it. -/
theorem Code.Within.block (ops : List (Op label)) (within : code.Within start stop pc ops after)
    (straight : ops.all Op.Straight = true) (goesOn : Inevitably code.Steps goal (after, code.line ops s)) :
    Inevitably code.Steps goal (pc, s) := by
  rw [← List.append_nil ops] at within
  refine Code.Within.line ops within straight fun next rest => ?_
  rw [show next = after from rest.lies]
  exact goesOn

theorem Code.Holds.front_le {listing : List (label × List (Op label))} (holds : code.Holds listing stop) :
    code.front listing stop ≤ stop := by
  induction listing with
  | nil => exact BitVec.le_refl _
  | cons block listing ih =>
    obtain ⟨l, ops⟩ := block
    exact BitVec.le_trans holds.1.le (ih holds.2)

/-- A block of a listing is inside the program, up to the block behind it. -/
theorem Code.Holds.block (before rest : List (label × List (Op label))) {l : label}
    (holds : code.Holds (before ++ (l, ops) :: rest) stop) :
    code.Within (code.front (before ++ (l, ops) :: rest) stop) stop (code.addr l) ops (code.front rest stop) := by
  induction before with
  | nil => exact ⟨BitVec.le_refl _, holds.1, Code.Holds.front_le holds.2⟩
  | cons block before ih =>
    obtain ⟨m, block⟩ := block
    obtain ⟨low, lies, high⟩ := ih holds.2
    exact ⟨BitVec.le_trans holds.1.le low, lies, high⟩

theorem Code.front_append (first second : List (label × List (Op label))) :
    code.front (first ++ second) stop = code.front first (code.front second stop) := by
  cases first <;> rfl

/-- Listings behind each other are one listing. -/
theorem Code.holds_append (first second : List (label × List (Op label))) :
    code.Holds (first ++ second) stop ↔ code.Holds first (code.front second stop) ∧ code.Holds second stop := by
  induction first with
  | nil => simp [Code.Holds]
  | cons block first ih =>
    obtain ⟨l, ops⟩ := block
    simp only [List.cons_append, Code.Holds, ih, Code.front_append, and_assoc]

end running

/-- An even address keeps when its lowest bit is cleared. -/
theorem even_cleared {a : BitVec 64} (even : a.toNat % 2 = 0) : a &&& ~~~1 = a := by
  ext i below
  have bit : (1 : BitVec 64)[i] = decide (i = 0) := BitVec.getElem_one below
  rw [BitVec.getElem_and, BitVec.getElem_not, bit]
  by_cases lowest : i = 0
  · subst lowest
    simp [BitVec.getElem_eq_testBit_toNat, Nat.testBit_zero, even]
  · simp [lowest]

/-! ### An assembler -/

section assembler
variable [DecidableEq label]

/-- A listing at consecutive addresses, four bytes an instruction; the other
symbols have their addresses from elsewhere. -/
def assemble (start : BitVec 64) (listing : List (label × List (Op label))) (foreign : label → BitVec 64) :
    Code label where
  addr l :=
    if l ∈ listing.map Prod.fst then
      start + BitVec.ofNat 64 (4 * ((listing.takeWhile fun block => block.1 ≠ l).flatMap Prod.snd).length)
    else foreign l
  fetch pc :=
    if (pc - start).toNat % 4 = 0 then
      ((listing.flatMap Prod.snd)[(pc - start).toNat / 4]?).map fun op => (op, pc + 4)
    else none

variable {start : BitVec 64} {listing rest : List (label × List (Op label))} {foreign : label → BitVec 64}
  {ops code : List (Op label)} {k : Nat}

/-- The address of the `k`-th instruction. -/
def nth (start : BitVec 64) (k : Nat) : BitVec 64 := start + BitVec.ofNat 64 (4 * k)

theorem nth_toNat (fits : start.toNat + 4 * k < 2 ^ 64) : (nth start k).toNat = start.toNat + 4 * k := by
  unfold nth
  rw [BitVec.toNat_add, BitVec.toNat_ofNat, Nat.mod_eq_of_lt (show 4 * k < 2 ^ 64 by omega), Nat.mod_eq_of_lt fits]

theorem assemble_fetch (fits : start.toNat + 4 * k < 2 ^ 64) :
    (assemble start listing foreign).fetch (nth start k) =
      ((listing.flatMap Prod.snd)[k]?).map fun op => (op, nth start (k + 1)) := by
  have offset : (nth start k - start).toNat = 4 * k := by
    unfold nth
    rw [BitVec.add_comm, BitVec.add_sub_cancel, BitVec.toNat_ofNat]
    omega
  have behind : nth start k + 4 = nth start (k + 1) := by
    unfold nth
    rw [Nat.mul_succ, BitVec.ofNat_add, BitVec.add_assoc]
    rfl
  unfold assemble
  simp only [offset, Nat.mul_mod_right, if_true]
  rw [Nat.mul_div_cancel_left k (by decide), behind]

theorem assemble_behind {op : Op label} (here : (assemble start listing foreign).fetch pc = some (op, next)) :
    next = pc + 4 ∧ (pc - start).toNat % 4 = 0 := by
  unfold assemble at here
  dsimp only at here
  split at here
  · rename_i aligned
    obtain ⟨op', -, same⟩ := Option.map_eq_some_iff.mp here
    cases same
    exact ⟨rfl, aligned⟩
  · cases here

theorem assemble_lies (here : (listing.flatMap Prod.snd).drop k = ops ++ code)
    (fits : start.toNat + 4 * (k + ops.length) < 2 ^ 64) :
    (assemble start listing foreign).Lies (nth start k) ops (nth start (k + ops.length)) := by
  induction ops generalizing k with
  | nil => rfl
  | cons op ops ih =>
    rw [List.length_cons] at fits ⊢
    have first : (listing.flatMap Prod.snd)[k]? = some op := by
      have head : ((listing.flatMap Prod.snd).drop k)[0]? = some op := by rw [here]; rfl
      rwa [List.getElem?_drop, Nat.add_zero] at head
    have others : (listing.flatMap Prod.snd).drop (k + 1) = ops ++ code := by
      rw [← List.drop_drop, here]
      rfl
    refine ⟨nth start (k + 1), ?_, ?_, ?_⟩
    · rw [assemble_fetch (by omega), first]
      rfl
    · rw [BitVec.lt_def, nth_toNat (by omega), nth_toNat (by omega)]
      omega
    · have lies := ih others (by omega)
      rwa [show k + 1 + ops.length = k + (ops.length + 1) by omega] at lies

/-- Whatever is assembled lies as it is listed. -/
theorem assemble_holds (start : BitVec 64) (listing : List (label × List (Op label))) (foreign : label → BitVec 64)
    (distinct : (listing.map Prod.fst).Nodup)
    (fits : start.toNat + 4 * (listing.flatMap Prod.snd).length < 2 ^ 64) :
    (assemble start listing foreign).Holds listing (nth start (listing.flatMap Prod.snd).length) := by
  have from_ (before rest : List (label × List (Op label))) (whole : before ++ rest = listing) :
      (assemble start listing foreign).Holds rest (nth start (listing.flatMap Prod.snd).length) ∧
        (assemble start listing foreign).front rest (nth start (listing.flatMap Prod.snd).length) =
          nth start (before.flatMap Prod.snd).length := by
    induction rest generalizing before with
    | nil =>
      rw [List.append_nil] at whole
      exact ⟨trivial, by rw [whole]; rfl⟩
    | cons block rest ih =>
      obtain ⟨l, ops⟩ := block
      obtain ⟨holds, next⟩ := ih (before ++ [(l, ops)]) (by simpa using whole)
      have fresh : ∀ block ∈ before, block.1 ≠ l := by
        intro block member same
        rw [← whole, List.map_append, List.nodup_append] at distinct
        exact distinct.2.2 block.1 (List.mem_map_of_mem member) l (by simp) same
      have place : (assemble start listing foreign).addr l = nth start (before.flatMap Prod.snd).length := by
        have known : l ∈ listing.map Prod.fst := by simp [← whole]
        have found : (listing.takeWhile fun block => block.1 ≠ l) = before := by
          rw [← whole, List.takeWhile_append_of_pos (fun block member => by simpa using fresh block member)]
          simp
        change (if _ then _ else _) = _
        rw [if_pos known, found]
        rfl
      have size : ((before ++ [(l, ops)]).flatMap Prod.snd).length = (before.flatMap Prod.snd).length + ops.length := by
        simp
      refine ⟨⟨?_, holds⟩, place⟩
      have here : (listing.flatMap Prod.snd).drop (before.flatMap Prod.snd).length = ops ++ rest.flatMap Prod.snd := by
        rw [← whole]
        simp
      rw [next, place, size]
      refine assemble_lies here ?_
      rw [← whole] at fits
      simp only [List.flatMap_append, List.length_append, List.flatMap_cons] at fits
      omega
  exact (from_ [] listing rfl).1

end assembler

end Neonos.Rv64Linked
