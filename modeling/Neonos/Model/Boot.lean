import Neonos.Model.TrapFrame
import Neonos.Rv64Linked

/-! From the linker script to the first checks of Rust: the memory map of
`linker.ld`, the boot code `_start` of `main.rs`, and `memory.rs`. What
`report_and_validate` prints is left out. -/
namespace Neonos.Boot
open Rv64.Reg Rv64Linked ByteMemory

/-! ### `linker.ld` -/

/-- `ALIGN(4K)`. -/
def align4K (a : Nat) : Nat := (a + 0xfff) / 0x1000 * 0x1000

/-- How many bytes the inputs of a section take; of `.bss`, those behind the
sections that the script names. -/
structure Sizes where
  text : Nat
  rodata : Nat
  data : Nat
  bss : Nat

/-- The bytes of `.bss.user_stack`, `.bss.user_trap_stack`, `.bss.kernel_env`
and `.bss.kernel_context`, which come before `.bss.probe`. -/
def BEFORE_PROBE : Nat := 16384 + 16384 + 16 + 128

/-- The symbols of the script, with `bss_probe` of the boot code. -/
structure Symbols where
  stext : Nat
  etext : Nat
  srodata : Nat
  erodata : Nat
  sdata : Nat
  edata : Nat
  sbootStack : Nat
  ebootStack : Nat
  sbss : Nat
  bssProbe : Nat
  ebss : Nat

/-- `SECTIONS`, the location counter going through it once. -/
def link (sizes : Sizes) : Symbols :=
  let stext := align4K 0x80200000
  let etext := stext + sizes.text
  let srodata := align4K etext
  let erodata := srodata + sizes.rodata
  let sdata := align4K erodata
  let edata := sdata + sizes.data
  let sbootStack := align4K edata
  let ebootStack := sbootStack + 65536
  let sbss := align4K ebootStack
  let bssProbe := sbss + BEFORE_PROBE
  let ebss := bssProbe + 8 + sizes.bss
  { stext, etext, srodata, erodata, sdata, edata, sbootStack, ebootStack, sbss, bssProbe, ebss }

/-! ### `_start` -/

/-- The features that `_start` and `memory.rs` look at. -/
structure Features where
  bssProbe : Bool
  skipBssClear : Bool

inductive Label where
  | _start
  | _start_2
  | _start_3
  | _start_4
  | _start_1
  | rust_main
  | boot_stack_top
  | bss_probe
  | sbss
  | ebss
  deriving DecidableEq

/-- `cfg!(..) as usize`. -/
def enabled (feature : Bool) : Int := if feature then 1 else 0

/-- The pattern that the probe is written with. -/
def PROBE : Int := 0x1122334455667788

/-- The lines of `.text.entry`; a local label carries the name of the block it is in. -/
def _start (features : Features) : List (Label × List (Op Label)) :=
  [(._start,
      [.la sp .boot_stack_top,
        .li t2 (enabled features.bssProbe), .beqz t2 ._start_2,
        .la t0 .bss_probe, .li t1 PROBE, .sd t1 0 t0]),
    (._start_2,
      [.li t2 (enabled features.skipBssClear), .bnez t2 ._start_4,
        .la t0 .sbss, .la t1 .ebss]),
    (._start_3, [.bgeu t0 t1 ._start_4, .sb zero 0 t0, .addi t0 t0 1, .j ._start_3]),
    (._start_4, [.call .rust_main]),
    (._start_1, [.wfi, .j ._start_1])]

/-! ### `memory.rs` -/

structure Region where
  start : Word
  stop : Word

namespace Region

/-- `self.end.saturating_sub(self.start)`. -/
def size (r : Region) : Word := if r.start ≤ r.stop then r.stop - r.start else 0

def WellFormed (r : Region) : Prop := r.start ≤ r.stop

instance (r : Region) : Decidable r.WellFormed := inferInstanceAs (Decidable (_ ≤ _))

def Contains (r : Region) (address : Word) : Prop := r.start ≤ address ∧ address < r.stop

instance (r : Region) (address : Word) : Decidable (r.Contains address) :=
  inferInstanceAs (Decidable (_ ∧ _))

end Region

def Overlaps (left right : Region) : Prop := left.start < right.stop ∧ right.start < left.stop

instance (left right : Region) : Decidable (Overlaps left right) := inferInstanceAs (Decidable (_ ∧ _))

structure Layout where
  text : Region
  rodata : Region
  data : Region
  bootStack : Region
  bss : Region

/-- `layout`, from the addresses of the symbols. -/
def Symbols.layout (s : Symbols) : Layout where
  text := ⟨.ofNat 64 s.stext, .ofNat 64 s.etext⟩
  rodata := ⟨.ofNat 64 s.srodata, .ofNat 64 s.erodata⟩
  data := ⟨.ofNat 64 s.sdata, .ofNat 64 s.edata⟩
  bootStack := ⟨.ofNat 64 s.sbootStack, .ofNat 64 s.ebootStack⟩
  bss := ⟨.ofNat 64 s.sbss, .ofNat 64 s.ebss⟩

/-- The panics of `report_and_validate`, with the numbers in their texts. -/
inductive Panic where
  | invertedRange
  | outOfOrder
  | stackSize (got : Word)
  | stackOverlapsBss
  | startOutside
  | spOutside
  | notZeroed (probe : Word)
  deriving DecidableEq

/-- `report_and_validate`, given what it reads: the layout, the address of
`_start`, the stack pointer and the probe. -/
def reportAndValidate (features : Features) (layout : Layout) (entry sp probe : Word) : Except Panic Unit :=
  if ¬ layout.text.WellFormed ∨ ¬ layout.rodata.WellFormed ∨ ¬ layout.data.WellFormed ∨
      ¬ layout.bootStack.WellFormed ∨ ¬ layout.bss.WellFormed then .error .invertedRange
  else if layout.rodata.start < layout.text.stop ∨ layout.data.start < layout.rodata.stop ∨
      layout.bootStack.start < layout.data.stop ∨ layout.bss.start < layout.bootStack.stop then .error .outOfOrder
  else if layout.bootStack.size ≠ 65536 then .error (.stackSize layout.bootStack.size)
  else if Overlaps layout.bootStack layout.bss then .error .stackOverlapsBss
  else if ¬ layout.text.Contains entry then .error .startOutside
  else if sp < layout.bootStack.start ∨ layout.bootStack.stop < sp then .error .spOutside
  else if features.skipBssClear = false ∧ probe ≠ 0 then .error (.notZeroed probe)
  else .ok ()

end Neonos.Boot
