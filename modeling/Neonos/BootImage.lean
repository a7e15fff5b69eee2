import Neonos.Model.Boot

/-! Booting: whatever memory and registers the machine comes up with, `_start`
hands Rust a stack and zeroed BSS, and the image that the linker script makes
passes the checks of `report_and_validate`. -/
namespace Neonos.Boot
open Rv64.Reg Rv64User Rv64Linked ByteMemory

/-! ### Clearing BSS -/

/-- Memory with a range of it zeroed. -/
def zeroed (r : Region) (m : Memory) : Memory := fun p => if r.Contains p then 0 else m p

theorem zeroed_empty (nothing : r.stop ≤ r.start) (m : Memory) : zeroed r m = m := by
  funext p
  refine if_neg fun inside => ?_
  obtain ⟨low, high⟩ := inside
  rw [BitVec.le_def] at nothing low
  rw [BitVec.lt_def] at high
  omega

theorem next_address {a b : Word} (before : a < b) : (a + 1).toNat = a.toNat + 1 := by
  have bound := b.isLt
  have one : (1 : Word).toNat = 1 := rfl
  rw [BitVec.lt_def] at before
  rw [BitVec.toNat_add, one]
  exact Nat.mod_eq_of_lt (by omega)

/-- The first byte of a range, and then the rest of it. -/
theorem zeroed_first {a b : Word} (before : a < b) (m : Memory) :
    zeroed ⟨a + 1, b⟩ (storeByte m a 0) = zeroed ⟨a, b⟩ m := by
  funext p
  have next := next_address before
  unfold zeroed storeByte
  by_cases here : p = a
  · subst here
    have inside : (⟨p, b⟩ : Region).Contains p := ⟨BitVec.le_refl p, before⟩
    have outside : ¬ (⟨p + 1, b⟩ : Region).Contains p := by
      intro inside
      have above := inside.1
      rw [BitVec.le_def, next] at above
      omega
    rw [if_pos inside, if_neg outside, Function.update_self]
    rfl
  · have same : (⟨a + 1, b⟩ : Region).Contains p ↔ (⟨a, b⟩ : Region).Contains p := by
      refine and_congr_left fun _ => ?_
      have apart : p.toNat ≠ a.toNat := fun eq => here (BitVec.eq_of_toNat_eq eq)
      rw [BitVec.le_def, BitVec.le_def, next]
      show a.toNat + 1 ≤ p.toNat ↔ a.toNat ≤ p.toNat
      omega
    rw [Function.update_of_ne here]
    simp only [same]

section code
variable {features : Features} {code : Code Label} {stop : Word} {s : Hart} {goal : Core → Prop}

/-- The loop of `_start`: by induction on how much is left, the byte at `t0`
is zeroed and the rest follows. -/
theorem clears (placed : code.Holds (_start features) stop) (left : (s.x t1).toNat - (s.x t0).toNat = n)
    (after : ∀ t : Hart, t.mem = zeroed ⟨s.x t0, s.x t1⟩ s.mem → t.x sp = s.x sp →
      Inevitably code.Steps goal (code.addr ._start_4, t)) :
    Inevitably code.Steps goal (code.addr ._start_3, s) := by
  obtain ⟨-, -, ⟨body, compare, -, lies⟩, -⟩ := placed
  obtain ⟨stored, store_, -, counted, count, -, back, jump, -⟩ := lies
  induction n generalizing s with
  | zero =>
    have done : s.x t1 ≤ s.x t0 := by
      rw [BitVec.le_def]
      omega
    refine code.goesOn compare rfl ?_
    rw [Op.goes, if_pos done]
    exact after s (zeroed_empty done s.mem).symm rfl
  | succ n ih =>
    have before : s.x t0 < s.x t1 := by
      rw [BitVec.lt_def]
      omega
    refine code.goesOn compare rfl ?_
    rw [Op.goes, if_neg (BitVec.not_le.mpr before)]
    refine code.goesOn store_ rfl (code.goesOn count rfl (code.goesOn jump rfl ?_))
    change Inevitably code.Steps goal (code.addr ._start_3,
      (s.setMem (storeByte s.mem (s.x t0 + 0#64) (s.x 0))).set t0 (s.x t0 + 1))
    rw [s.zero, BitVec.add_zero]
    have next := next_address before
    refine ih ?_ fun t mem pointer => after t (mem.trans ?_) (pointer.trans ?_)
    · have moved : ((s.setMem (storeByte s.mem (s.x t0) 0)).set t0 (s.x t0 + 1)).x t0 = s.x t0 + 1 := by simp
      have limit : ((s.setMem (storeByte s.mem (s.x t0) 0)).set t0 (s.x t0 + 1)).x t1 = s.x t1 := by simp
      rw [moved, limit, next]
      omega
    · simpa using zeroed_first before s.mem
    · simp

/-- Up to label 2: the stack pointer, and the probe pattern if that feature is on. -/
theorem probes (placed : code.Holds (_start features) stop)
    (after : ∀ t : Hart, t.x sp = code.addr .boot_stack_top →
      t.mem = (if features.bssProbe then store s.mem (code.addr .bss_probe) (BitVec.ofInt 64 PROBE) else s.mem) →
      Inevitably code.Steps goal (code.addr ._start_2, t)) :
    Inevitably code.Steps goal (code.addr ._start, s) := by
  obtain ⟨⟨_, stack, -, _, feature, -, _, skip, -, _, address, -, _, pattern, -, _, store_, -, rfl⟩, -⟩ := placed
  refine code.goesOn stack rfl (code.goesOn feature rfl ?_)
  by_cases on : features.bssProbe = true
  · refine code.falls skip rfl (by simp [Instr.target, Instr.run, Op.run, on, enabled]) ?_
    refine code.goesOn address rfl (code.goesOn pattern rfl (code.goesOn store_ rfl (after _ ?_ ?_)))
    · simp [Op.run, Instr.run]
    · simp [Op.run, Instr.run, on]
  · refine code.jumps skip rfl (by simp [Instr.target, Instr.run, Op.run, on, enabled]) (after _ ?_ ?_)
    · simp [Op.run, Instr.run]
    · simp [Op.run, Instr.run, on]

/-- What `_start` makes of memory: the probe pattern if that feature is on, and
then zeroes over all of BSS unless they are skipped. -/
def booted (features : Features) (bss : Region) (probe : Word) (m : Memory) : Memory :=
  let m := if features.bssProbe then store m probe (BitVec.ofInt 64 PROBE) else m
  if features.skipBssClear then m else zeroed bss m

/-- From `_start` to the call of `rust_main`. -/
theorem start_calls (placed : code.Holds (_start features) stop)
    (after : ∀ t : Hart, t.mem = booted features ⟨code.addr .sbss, code.addr .ebss⟩ (code.addr .bss_probe) s.mem →
      t.x sp = code.addr .boot_stack_top → Inevitably code.Steps goal (code.addr .rust_main, t)) :
    Inevitably code.Steps goal (code.addr ._start, s) := by
  have enters (t : Hart) (mem : t.mem = booted features ⟨code.addr .sbss, code.addr .ebss⟩
      (code.addr .bss_probe) s.mem) (pointer : t.x sp = code.addr .boot_stack_top) :
      Inevitably code.Steps goal (code.addr ._start_4, t) := by
    obtain ⟨-, -, -, ⟨behind, call, -, -⟩, -⟩ := placed
    refine code.goesOn call rfl (after _ ?_ ?_)
    · simpa [Op.run] using mem
    · simpa [Op.run] using pointer
  refine probes placed fun t pointer mem => ?_
  obtain ⟨-, ⟨_, feature, -, _, skip, -, _, low, -, _, high, -, rfl⟩, -⟩ := id placed
  refine code.goesOn feature rfl ?_
  by_cases on : features.skipBssClear = true
  · refine code.jumps skip rfl (by simp [Instr.target, Instr.run, Op.run, on, enabled]) (enters _ ?_ ?_)
    · simpa [Op.run, Instr.run, booted, on] using mem
    · simpa [Op.run, Instr.run] using pointer
  · refine code.falls skip rfl (by simp [Instr.target, Instr.run, Op.run, on, enabled]) ?_
    refine code.goesOn low rfl (code.goesOn high rfl (clears placed rfl fun u zeroes same => enters u ?_ ?_))
    · rw [zeroes]
      simp [Op.run, Instr.run, booted, on, mem]
    · rw [same]
      simpa [Op.run, Instr.run] using pointer

end code

/-! ### The memory map -/

theorem le_align4K (a : Nat) : a ≤ align4K a := by
  unfold align4K
  omega

/-- The order of the symbols of an image. -/
structure Symbols.Ordered (s : Symbols) : Prop where
  text : s.stext ≤ s.etext
  textRodata : s.etext ≤ s.srodata
  rodata : s.srodata ≤ s.erodata
  rodataData : s.erodata ≤ s.sdata
  data : s.sdata ≤ s.edata
  dataStack : s.edata ≤ s.sbootStack
  bootStack : s.ebootStack = s.sbootStack + 65536
  stackBss : s.ebootStack ≤ s.sbss
  probe : s.sbss ≤ s.bssProbe
  bss : s.bssProbe + 8 ≤ s.ebss

theorem link_ordered (sizes : Sizes) : (link sizes).Ordered where
  text := Nat.le_add_right _ _
  textRodata := le_align4K _
  rodata := Nat.le_add_right _ _
  rodataData := le_align4K _
  data := Nat.le_add_right _ _
  dataStack := le_align4K _
  bootStack := rfl
  stackBss := le_align4K _
  probe := Nat.le_add_right _ _
  bss := Nat.le_add_right _ _

/-- The regions lie behind each other and the rest of what `report_and_validate`
checks holds too. -/
structure Layout.Accepted (features : Features) (layout : Layout) (entry sp probe : Word) : Prop where
  text : layout.text.WellFormed
  rodata : layout.rodata.WellFormed
  data : layout.data.WellFormed
  bootStack : layout.bootStack.WellFormed
  bss : layout.bss.WellFormed
  textRodata : layout.text.stop ≤ layout.rodata.start
  rodataData : layout.rodata.stop ≤ layout.data.start
  dataStack : layout.data.stop ≤ layout.bootStack.start
  stackBss : layout.bootStack.stop ≤ layout.bss.start
  size : layout.bootStack.size = 65536
  entry : layout.text.Contains entry
  low : layout.bootStack.start ≤ sp
  high : sp ≤ layout.bootStack.stop
  zeroed : features.skipBssClear = false → probe = 0

theorem apart_of_le {left right : Region} (before : left.stop ≤ right.start) : ¬ Overlaps left right := by
  intro overlap
  exact BitVec.not_lt.mpr before overlap.2

theorem accepted_iff {features : Features} {layout : Layout} {entry sp probe : Word} :
    reportAndValidate features layout entry sp probe = .ok () ↔ layout.Accepted features entry sp probe := by
  unfold reportAndValidate
  constructor
  · intro passed
    by_cases inverted : ¬ layout.text.WellFormed ∨ ¬ layout.rodata.WellFormed ∨ ¬ layout.data.WellFormed ∨
        ¬ layout.bootStack.WellFormed ∨ ¬ layout.bss.WellFormed
    · rw [if_pos inverted] at passed
      cases passed
    by_cases order : layout.rodata.start < layout.text.stop ∨ layout.data.start < layout.rodata.stop ∨
        layout.bootStack.start < layout.data.stop ∨ layout.bss.start < layout.bootStack.stop
    · rw [if_neg inverted, if_pos order] at passed
      cases passed
    rw [if_neg inverted, if_neg order] at passed
    simp only [not_or, not_not, BitVec.not_lt] at inverted order
    obtain ⟨text, rodata, data, bootStack, bss⟩ := inverted
    obtain ⟨textRodata, rodataData, dataStack, stackBss⟩ := order
    split at passed
    · cases passed
    rename_i size
    rw [if_neg (apart_of_le stackBss)] at passed
    split at passed
    · cases passed
    rename_i entry
    split at passed
    · cases passed
    rename_i pointer
    split at passed
    · cases passed
    rename_i zeroed
    simp only [not_or, not_not, not_and, BitVec.not_lt, ne_eq] at size entry pointer zeroed
    exact ⟨text, rodata, data, bootStack, bss, textRodata, rodataData, dataStack, stackBss, size, entry, pointer.1,
      pointer.2, zeroed⟩
  · intro accepted
    have size : ¬ layout.bootStack.size ≠ 65536 := not_not.mpr accepted.size
    have entry : ¬ ¬ layout.text.Contains entry := not_not.mpr accepted.entry
    have zeroed : ¬ (features.skipBssClear = false ∧ probe ≠ 0) := fun both => both.2 (accepted.zeroed both.1)
    rw [if_neg (by simp [accepted.text, accepted.rodata, accepted.data, accepted.bootStack, accepted.bss]),
      if_neg (by simp [accepted.textRodata, accepted.rodataData, accepted.dataStack, accepted.stackBss]),
      if_neg size, if_neg (apart_of_le accepted.stackBss), if_neg entry,
      if_neg (by simp [accepted.low, accepted.high]), if_neg zeroed]

/-- An image that the addresses can hold. -/
theorem word_le {a b : Nat} (le : a ≤ b) (fits : b < 2 ^ 64) : BitVec.ofNat 64 a ≤ BitVec.ofNat 64 b := by
  rw [BitVec.le_def, BitVec.toNat_ofNat, BitVec.toNat_ofNat, Nat.mod_eq_of_lt (by omega), Nat.mod_eq_of_lt fits]
  exact le

/-- The addresses that `_start` is linked with. -/
structure Linked (code : Code Label) (s : Symbols) : Prop where
  entry : code.addr ._start = .ofNat 64 s.stext
  stack : code.addr .boot_stack_top = .ofNat 64 s.ebootStack
  probe : code.addr .bss_probe = .ofNat 64 s.bssProbe
  sbss : code.addr .sbss = .ofNat 64 s.sbss
  ebss : code.addr .ebss = .ofNat 64 s.ebss

/-- The map of an image is one that `report_and_validate` accepts, whatever part
of the boot stack is in use. -/
theorem link_accepted (features : Features) (sizes : Sizes) (entry : 0 < sizes.text)
    (fits : (link sizes).ebss < 2 ^ 64) (used : Nat) (within : used ≤ 65536) {probe : Word}
    (zeroed : features.skipBssClear = false → probe = 0) :
    (link sizes).layout.Accepted features (.ofNat 64 (link sizes).stext)
      (.ofNat 64 (link sizes).ebootStack - .ofNat 64 used) probe := by
  obtain ⟨text, textRodata, rodata, rodataData, data, dataStack, bootStack, stackBss, probe_, bss⟩ := link_ordered sizes
  have nonempty : (link sizes).stext < (link sizes).etext := Nat.lt_add_of_pos_right entry
  generalize link sizes = s at *
  have down : (BitVec.ofNat 64 s.ebootStack - BitVec.ofNat 64 used).toNat = s.ebootStack - used := by
    rw [BitVec.toNat_sub_of_le (word_le (by omega) (by omega)), BitVec.toNat_ofNat, BitVec.toNat_ofNat,
      Nat.mod_eq_of_lt (by omega), Nat.mod_eq_of_lt (by omega)]
  have whole : BitVec.ofNat 64 s.sbootStack ≤ BitVec.ofNat 64 s.ebootStack := word_le (by omega) (by omega)
  constructor
  · exact word_le text (by omega)
  · exact word_le rodata (by omega)
  · exact word_le data (by omega)
  · exact whole
  · exact word_le (by omega) fits
  · exact word_le textRodata (by omega)
  · exact word_le rodataData (by omega)
  · exact word_le dataStack (by omega)
  · exact word_le stackBss (by omega)
  · apply BitVec.eq_of_toNat_eq
    rw [Region.size, if_pos (by exact whole)]
    change (BitVec.ofNat 64 s.ebootStack - BitVec.ofNat 64 s.sbootStack).toNat = 65536
    rw [BitVec.toNat_sub_of_le whole, BitVec.toNat_ofNat, BitVec.toNat_ofNat,
      Nat.mod_eq_of_lt (by omega), Nat.mod_eq_of_lt (by omega)]
    omega
  · refine ⟨BitVec.le_refl _, ?_⟩
    change BitVec.ofNat 64 s.stext < BitVec.ofNat 64 s.etext
    rw [BitVec.lt_def, BitVec.toNat_ofNat, BitVec.toNat_ofNat, Nat.mod_eq_of_lt (by omega),
      Nat.mod_eq_of_lt (by omega)]
    exact nonempty
  · change BitVec.ofNat 64 s.sbootStack ≤ _
    rw [BitVec.le_def, down, BitVec.toNat_ofNat, Nat.mod_eq_of_lt (by omega)]
    omega
  · change _ ≤ BitVec.ofNat 64 s.ebootStack
    rw [BitVec.le_def, down, BitVec.toNat_ofNat, Nat.mod_eq_of_lt (by omega)]
    omega
  · exact zeroed

theorem link_accepts (features : Features) (sizes : Sizes) (entry : 0 < sizes.text)
    (fits : (link sizes).ebss < 2 ^ 64) (used : Nat) (within : used ≤ 65536) {probe : Word}
    (zeroed : features.skipBssClear = false → probe = 0) :
    reportAndValidate features (link sizes).layout (.ofNat 64 (link sizes).stext)
      (.ofNat 64 (link sizes).ebootStack - .ofNat 64 used) probe = .ok () :=
  accepted_iff.mpr (link_accepted features sizes entry fits used within zeroed)

/-- In an accepted map nothing that is loaded is in BSS. -/
theorem Layout.Accepted.loaded {features : Features} {layout : Layout} {entry sp probe : Word}
    (accepted : layout.Accepted features entry sp probe) {r : Region} (member : r ∈ [layout.text, layout.rodata, layout.data])
    {p : Word} (inside : r.Contains p) : ¬ layout.bss.Contains p := by
  have stack := BitVec.le_trans accepted.bootStack accepted.stackBss
  have data := BitVec.le_trans accepted.dataStack stack
  have rodata := BitVec.le_trans accepted.rodataData (BitVec.le_trans accepted.data data)
  have text := BitVec.le_trans accepted.textRodata (BitVec.le_trans accepted.rodata rodata)
  have before : r.stop ≤ layout.bss.start := by
    simp only [List.mem_cons, List.not_mem_nil, or_false] at member
    rcases member with rfl | rfl | rfl
    · exact text
    · exact rodata
    · exact data
  intro there
  have low := BitVec.le_trans before there.1
  exact BitVec.not_lt.mpr low inside.2

/-! ### Booting -/

theorem load_zero {m : Memory} {a : Word} (bytes : ∀ i < 8, m (a + BitVec.ofNat 64 i) = 0) : load m a = 0 := by
  unfold load byte
  rw [bytes 7 (by decide), bytes 6 (by decide), bytes 5 (by decide), bytes 4 (by decide), bytes 3 (by decide),
    bytes 2 (by decide), bytes 1 (by decide), bytes 0 (by decide)]
  rfl

/-- The bytes of the probe are bytes of BSS. -/
theorem probe_inside (sizes : Sizes) (fits : (link sizes).ebss < 2 ^ 64) (i : Nat) (byte : i < 8) :
    (link sizes).layout.bss.Contains (BitVec.ofNat 64 (link sizes).bssProbe + BitVec.ofNat 64 i) := by
  have probe := (link_ordered sizes).probe
  have bss := (link_ordered sizes).bss
  generalize link sizes = s at *
  rw [← BitVec.ofNat_add]
  refine ⟨word_le (by omega) (by omega), ?_⟩
  change BitVec.ofNat 64 (s.bssProbe + i) < BitVec.ofNat 64 s.ebss
  rw [BitVec.lt_def, BitVec.toNat_ofNat, BitVec.toNat_ofNat, Nat.mod_eq_of_lt (by omega), Nat.mod_eq_of_lt fits]
  omega

theorem booted_inside {features : Features} (cleared : features.skipBssClear = false) (r : Region) (probe : Word)
    (m : Memory) (inside : r.Contains p) : booted features r probe m p = 0 := by
  unfold booted
  rw [cleared]
  exact if_pos inside

theorem bss_region (s : Symbols) : s.layout.bss = ⟨.ofNat 64 s.sbss, .ofNat 64 s.ebss⟩ := rfl

/-- Outside BSS nothing is written. -/
theorem booted_outside (features : Features) (sizes : Sizes) (fits : (link sizes).ebss < 2 ^ 64) (m : Memory)
    {p : Word} (outside : ¬ (link sizes).layout.bss.Contains p) :
    booted features (link sizes).layout.bss (.ofNat 64 (link sizes).bssProbe) m p = m p := by
  have far : ¬ (p - BitVec.ofNat 64 (link sizes).bssProbe).toNat < 8 := by
    intro near
    have inside := probe_inside sizes fits _ near
    rw [BitVec.ofNat_toNat, BitVec.setWidth_eq, BitVec.add_comm, BitVec.sub_add_cancel] at inside
    exact outside inside
  have unchanged : (if features.bssProbe then
      store m (.ofNat 64 (link sizes).bssProbe) (BitVec.ofInt 64 PROBE) else m) p = m p := by
    split
    · exact if_neg far
    · rfl
  unfold booted
  split
  · exact unchanged
  · exact (if_neg outside).trans unchanged

/-- What Rust finds: its stack, zeroes in BSS, and the rest of memory as it was,
so that no loaded byte is lost. -/
structure Handed (features : Features) (sizes : Sizes) (entry probe : Word) (m : Memory) (t : Hart) : Prop where
  stack : t.x sp = .ofNat 64 (link sizes).ebootStack
  zeroes : features.skipBssClear = false → ∀ p, (link sizes).layout.bss.Contains p → t.mem p = 0
  others : ∀ p, ¬ (link sizes).layout.bss.Contains p → t.mem p = m p
  loaded : ∀ r ∈ [(link sizes).layout.text, (link sizes).layout.rodata, (link sizes).layout.data],
    ∀ p, r.Contains p → t.mem p = m p
  accepted : ∀ used ≤ 65536, ∀ m' : Memory, (∀ p, (link sizes).layout.bss.Contains p → m' p = t.mem p) →
    reportAndValidate features (link sizes).layout entry (t.x sp - .ofNat 64 used) (load m' probe) = .ok ()

/-- From any registers and memory, with any sizes of the sections and any of the
two features, the boot code gets to `rust_main`. It has zeroed all of BSS and
touched nothing else, and `report_and_validate` finds nothing wrong, however
much of its stack Rust uses until then. -/
theorem boot_accepted (features : Features) (sizes : Sizes) (entry : 0 < sizes.text)
    (fits : (link sizes).ebss < 2 ^ 64) (code : Code Label) (placed : code.Holds (_start features) stop)
    (linked : Linked code (link sizes)) (s : Hart) :
    Inevitably code.Steps (fun c => c.1 = code.addr .rust_main ∧
      Handed features sizes (code.addr ._start) (code.addr .bss_probe) s.mem c.2) (code.addr ._start, s) := by
  refine start_calls placed fun t mem pointer => .now ⟨rfl, ?_⟩
  rw [linked.sbss, linked.ebss, linked.probe, ← bss_region] at mem
  rw [linked.stack] at pointer
  have zeroes (on : features.skipBssClear = false) (p : Word) (inside : (link sizes).layout.bss.Contains p) :
      t.mem p = 0 := by
    rw [mem]
    exact booted_inside on _ _ _ inside
  have others (p : Word) (outside : ¬ (link sizes).layout.bss.Contains p) : t.mem p = s.mem p := by
    rw [mem]
    exact booted_outside features sizes fits s.mem outside
  refine ⟨pointer, zeroes, others, fun r member p inside => others p ?_, fun used within m' same => ?_⟩
  · exact (link_accepted features sizes entry fits 0 (Nat.zero_le _) fun _ => rfl).loaded member inside
  · rw [pointer, linked.entry, linked.probe]
    refine link_accepts features sizes entry fits used within fun on => load_zero fun i byte => ?_
    have inside := probe_inside sizes fits i byte
    rw [same _ inside]
    exact zeroes on _ inside

/-- An image with 4096 bytes in each section. -/
def smallSizes : Sizes := ⟨4096, 4096, 4096, 4096⟩

def smallCode : Code Label :=
  assemble 0x80200000 (_start ⟨true, false⟩) fun
    | .boot_stack_top | .sbss => 0x80213000
    | .bss_probe => 0x8021b090
    | .ebss => 0x8021c098
    | _ => 0x80200100

theorem smallCode_linked : Linked smallCode (link smallSizes) := by
  constructor <;> decide

/-- It boots on a machine that comes up with `0xff` everywhere. -/
theorem boot_accepted_small : Inevitably smallCode.Steps (fun c => c.1 = smallCode.addr .rust_main ∧
    Handed ⟨true, false⟩ smallSizes (smallCode.addr ._start) (smallCode.addr .bss_probe) (fun _ => 0xff) c.2)
    (smallCode.addr ._start, ⟨fun _ => 0, rfl, fun _ => 0xff⟩) :=
  boot_accepted ⟨true, false⟩ smallSizes (by decide) (by decide) smallCode
    (assemble_holds _ _ _ (by decide) (by decide)) smallCode_linked
    ⟨fun _ => 0, rfl, fun _ => 0xff⟩

end Neonos.Boot
