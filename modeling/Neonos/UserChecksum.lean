import Neonos.Model.UserScheduler

/-! The checks that the scheduler's user program makes of itself never fail,
whatever interrupts it, as long as its traps keep their promise. -/
namespace Neonos.UserScheduler
open Rv64.Reg Rv64User ByteMemory Scheduler Runs

/-- The answers that the program relies on. -/
structure Kept (answers : Word → Word → Option Word) (marker : Word) : Prop where
  putchar : answers 1 marker = some 0
  yield : ∀ arg0, answers 3 arg0 = some 0
  unknown : ∀ arg0, answers 999 arg0 = some (-1)
  exit : answers 2 0 = none

/-- What the program never writes, and where its loop is: after `k` turns, with
this sum. -/
structure Holds (marker n mode k sum : Word) (s : Hart) : Prop where
  letter : s.x s0 = marker
  limit : s.x s1 = n
  kind : s.x s4 = mode
  sentinel : s.x a3 = 0x12345678
  word : load s.mem (s.x sp) = 0x12345678 + marker
  count : s.x s2 = k
  total : s.x s3 = sum

/-- The program gets from one place to another without a look at
`sched_timer_wait` or anything behind it, with this many turns of the loop and
not more than so many steps. -/
def Passes (answers : Word → Word → Option Word) (turns most : Nat) (c c' : Nat × Hart) : Prop :=
  ∃ ks, Run (Steps listing answers) c ks c' ∧ (∀ k ∈ ks, k < listing.place .sched_timer_wait) ∧
    ks.count (listing.place .sched_loop) = turns ∧ ks.length ≤ most

/-- More steps than a turn of the loop takes: all modes burn a burst, but the
one that only computes. -/
def turnSteps (mode : Nat) : Nat := if mode = 1 then 16 else 20100

variable {answers : Word → Word → Option Word} {s : Hart}

theorem Passes.trans (first : Passes answers a most c c') (second : Passes answers b more c' c'') :
    Passes answers (a + b) (most + more) c c'' := by
  obtain ⟨ks, run, inside, turns, length⟩ := first
  obtain ⟨ls, run', inside', turns', length'⟩ := second
  refine ⟨ks ++ ls, run.append run', ?_, by rw [List.count_append, turns, turns'], ?_⟩
  intro j member
  rcases List.mem_append.mp member with early | late
  · exact inside j early
  · exact inside' j late
  · rw [List.length_append]
    omega

theorem Passes.mono (passes : Passes answers a most c c') (more : most ≤ bound) : Passes answers a bound c c' := by
  obtain ⟨ks, run, inside, turns, length⟩ := passes
  exact ⟨ks, run, inside, turns, length.trans more⟩

/-- The other registers are scratch. -/
theorem Holds.set (holds : Holds marker n mode k sum s) (r : Fin 32) (v : Word)
    (scratch : r ∉ [sp, s0, s1, s2, s3, s4, a3]) : Holds marker n mode k sum (s.set r v) := by
  have kept (q : Fin 32) (used : q ∈ [sp, s0, s1, s2, s3, s4, a3]) : (s.set r v).x q = s.x q := by
    rw [Hart.set_x, if_neg]
    rintro ⟨rfl, -⟩
    exact scratch used
  refine ⟨(kept s0 (by decide)).trans holds.letter, (kept s1 (by decide)).trans holds.limit,
    (kept s4 (by decide)).trans holds.kind, (kept a3 (by decide)).trans holds.sentinel, ?_,
    (kept s2 (by decide)).trans holds.count, (kept s3 (by decide)).trans holds.total⟩
  rw [Hart.set_mem, kept sp (by decide)]
  exact holds.word

theorem program_enters (answers : Word → Word → Option Word) (s : Hart) : ∃ t, Passes answers 0 5 (listing.place .sched_entry, s) (listing.place .sched_loop, t) ∧
    Holds (s.x s0) (s.x s1) (s.x s4) 0 0 t := by
  refine ⟨_, ⟨_, goes rfl rfl rfl <| goes rfl rfl rfl <| goes rfl rfl rfl <| goes rfl rfl rfl <|
    goes rfl rfl rfl .nil, by decide, by decide, by decide⟩, ?_⟩
  constructor <;> simp [Instr.run, load_store_same]

/-- The head of the loop: both checks pass, and one more is counted and added. -/
theorem loop_head (answers : Word → Word → Option Word) (holds : Holds marker n mode k sum s) :
    ∃ t, Passes answers 1 7 (listing.place .sched_loop, s) (listing.place .sched_loop + 7, t) ∧
      Holds marker n mode (k + 1) (sum + (k + 1)) t := by
  obtain ⟨letter, limit, kind, sentinel, word, count, total⟩ := holds
  refine ⟨_, ⟨_, goes rfl rfl rfl <| goes rfl rfl (by simp [Instr.target, Instr.run, sentinel]) <|
    goes rfl rfl rfl <| goes rfl rfl rfl <|
    goes rfl rfl (by simp [Instr.target, Instr.run, sentinel, word, letter]) <|
    goes rfl rfl rfl <| goes rfl rfl rfl .nil, by decide, by decide, by decide⟩, ?_⟩
  constructor <;> simp [Instr.run, letter, limit, kind, sentinel, word, count, total]

/-- A user burst, however long, writes `t2` only. -/
theorem burst_path {l : Label} {k : Nat} (length : Nat) (fits : length + 1 < 2 ^ 64)
    (first : listing.code[k]? = some (.li t2 (length + 1 : Nat))) (top : k + 1 = listing.place l)
    (lower : listing.code[listing.place l]? = some (.addi t2 t2 (-1)))
    (back : listing.code[listing.place l + 1]? = some (.bnez t2 l))
    (inside : listing.place .sched_loop < k ∧ k + 2 < listing.place .sched_timer_wait) :
    Passes answers 0 (2 * length + 3) (k, s) (listing.place l + 2, s.set t2 0) := by
  have value : (s.set t2 (BitVec.ofInt 64 (length + 1 : Nat))).x t2 = BitVec.ofNat 64 (length + 1) := by
    rw [Hart.set_x, if_pos (by decide), BitVec.ofInt_natCast]
  obtain ⟨ks, run, places, steps⟩ := countdown answers (by decide) lower back rfl length _ fits value
  rw [Hart.set_set, ← top] at run
  rw [← top] at places
  refine ⟨k :: ks, goes first rfl rfl (top ▸ run), ?_, List.count_eq_zero.mpr ?_, ?_⟩
  · intro j member
    rcases List.mem_cons.mp member with rfl | later
    · omega
    · rcases places j later with rfl | rfl <;> omega
  · intro member
    rcases List.mem_cons.mp member with same | later
    · omega
    · rcases places _ later with same | same <;> omega
  · rw [List.length_cons, steps]
    omega

theorem yield_path (kept : Kept answers marker) (holds : Holds marker n mode k sum s) :
    ∃ t, Passes answers 0 20005 (listing.place .sched_yield, s) (listing.place .sched_next, t) ∧
      Holds marker n mode k sum t := by
  have burst : Passes answers 0 20001 (listing.place .sched_yield, s)
      (listing.place .sched_yield_1 + 2, s.set t2 0) :=
    burst_path 9999 (by decide) rfl rfl rfl rfl (by decide)
  have call : Passes answers 0 4 (listing.place .sched_yield_1 + 2, s.set t2 0)
      (listing.place .sched_next, ((s.set t2 0).set a7 3).set a0 0) :=
    ⟨_, goes rfl rfl rfl <| asks rfl (by simpa [Instr.run] using kept.yield _) <|
      goes rfl rfl (by simp [Instr.target]) <| jumps rfl rfl rfl .nil, by decide, by decide, by decide⟩
  exact ⟨_, burst.trans call,
    ((holds.set t2 0 (by decide)).set a7 3 (by decide)).set a0 0 (by decide)⟩

theorem syscall_path (kept : Kept answers marker) (holds : Holds marker n mode k sum s) :
    ∃ t, Passes answers 0 2005 (listing.place .sched_syscall, s) (listing.place .sched_next, t) ∧
      Holds marker n mode k sum t := by
  have burst : Passes answers 0 2001 (listing.place .sched_syscall, s)
      (listing.place .sched_syscall_2 + 2, s.set t2 0) :=
    burst_path 999 (by decide) rfl rfl rfl rfl (by decide)
  have call : Passes answers 0 4 (listing.place .sched_syscall_2 + 2, s.set t2 0)
      (listing.place .sched_next, (((s.set t2 0).set a7 999).set a0 (-1)).set t0 (-1)) :=
    ⟨_, goes rfl rfl rfl <| asks rfl (by simpa [Instr.run] using kept.unknown _) <|
      goes rfl rfl rfl <| goes rfl rfl (by simp [Instr.target, Instr.run]) .nil, by decide, by decide, by decide⟩
  exact ⟨_, burst.trans call,
    (((holds.set t2 0 (by decide)).set a7 999 (by decide)).set a0 (-1) (by decide)).set t0 (-1)
      (by decide)⟩

theorem putchar_path (kept : Kept answers marker) (holds : Holds marker n 0 k sum s) :
    ∃ t, Passes answers 0 12 (listing.place .sched_loop + 7, s) (listing.place .sched_yield, t) ∧
      Holds marker n 0 k sum t := by
  obtain ⟨letter, limit, kind, sentinel, word, count, total⟩ := holds
  refine ⟨_, ⟨_, goes rfl rfl rfl <| goes rfl rfl (by simp [Instr.target, Instr.run, kind]) <|
    goes rfl rfl rfl <| goes rfl rfl (by simp [Instr.target, Instr.run, kind]) <|
    goes rfl rfl rfl <| goes rfl rfl (by simp [Instr.target, Instr.run, kind]) <|
    goes rfl rfl rfl <| goes rfl rfl (by simp [Instr.target, Instr.run, kind]) <|
    goes rfl rfl rfl <| goes rfl rfl rfl <|
    asks rfl (by simpa [Instr.run, letter] using kept.putchar) <|
    goes rfl rfl (by simp [Instr.target, Instr.run]) .nil, by decide, by decide, by decide⟩, ?_⟩
  constructor <;> simp [Instr.run, letter, limit, kind, sentinel, word, count, total]

/-- Each mode has its own way from the dispatch to the end of the loop. -/
theorem mode_path (kept : Kept answers marker) (modes : m ≤ 3)
    (holds : Holds marker n (BitVec.ofNat 64 m) k sum s) :
    ∃ t, Passes answers 0 (turnSteps m - 8) (listing.place .sched_loop + 7, s) (listing.place .sched_next, t) ∧
      Holds marker n (BitVec.ofNat 64 m) k sum t := by
  have kind := holds.kind
  interval_cases m
  · obtain ⟨t, putchar, holds⟩ := putchar_path kept holds
    obtain ⟨t', rest, holds⟩ := yield_path kept holds
    exact ⟨t', (putchar.trans rest).mono (by decide), holds⟩
  · exact ⟨_, ⟨_, goes rfl rfl rfl <| jumps rfl rfl (by simp [Instr.target, Instr.run, kind]) .nil,
      by decide, by decide, by decide⟩, holds.set t0 1 (by decide)⟩
  · have way : Passes answers 0 8 (listing.place .sched_loop + 7, s)
        (listing.place .sched_yield, (((s.set t0 1).set t0 4).set t0 3).set t0 2) :=
      ⟨_, goes rfl rfl rfl <| goes rfl rfl (by simp [Instr.target, Instr.run, kind]) <|
        goes rfl rfl rfl <| goes rfl rfl (by simp [Instr.target, Instr.run, kind]) <|
        goes rfl rfl rfl <| goes rfl rfl (by simp [Instr.target, Instr.run, kind]) <|
        goes rfl rfl rfl <| jumps rfl rfl (by simp [Instr.target, Instr.run, kind]) .nil,
        by decide, by decide, by decide⟩
    obtain ⟨t, rest, holds⟩ := yield_path kept ((((holds.set t0 1 (by decide)).set t0 4 (by decide)).set
      t0 3 (by decide)).set t0 2 (by decide))
    exact ⟨t, (way.trans rest).mono (by decide), holds⟩
  · have way : Passes answers 0 6 (listing.place .sched_loop + 7, s)
        (listing.place .sched_syscall, ((s.set t0 1).set t0 4).set t0 3) :=
      ⟨_, goes rfl rfl rfl <| goes rfl rfl (by simp [Instr.target, Instr.run, kind]) <|
        goes rfl rfl rfl <| goes rfl rfl (by simp [Instr.target, Instr.run, kind]) <|
        goes rfl rfl rfl <| jumps rfl rfl (by simp [Instr.target, Instr.run, kind]) .nil,
        by decide, by decide, by decide⟩
    obtain ⟨t, rest, holds⟩ := syscall_path kept
      (((holds.set t0 1 (by decide)).set t0 4 (by decide)).set t0 3 (by decide))
    exact ⟨t, (way.trans rest).mono (by decide), holds⟩

/-! ### The loop and its sum -/

/-- The sum that the loop has reached after `k` turns. -/
def upTo (k : Nat) : Nat := ∑ i ∈ Finset.range (k + 1), i

theorem upTo_succ (k : Nat) : upTo (k + 1) = upTo k + (k + 1) := Finset.sum_range_succ _ _

theorem upTo_closed (k : Nat) : upTo k = (k + 1) * k / 2 := Finset.sum_range_id (k + 1)

/-- The product does not overflow before it is halved. -/
theorem checksum_closed (fits : n < 2 ^ 32) :
    ((BitVec.ofNat 64 n + 1) * BitVec.ofNat 64 n) >>> 1 = BitVec.ofNat 64 (upTo n) := by
  have product : (n + 1) * n < 2 ^ 64 := by nlinarith
  have half : (n + 1) * n / 2 < 2 ^ 64 := by omega
  rw [upTo_closed]
  apply BitVec.eq_of_toNat_eq
  simp only [BitVec.toNat_ushiftRight, BitVec.toNat_mul, BitVec.toNat_add, BitVec.toNat_ofNat,
    Nat.shiftRight_eq_div_pow]
  have one : (1 : Word).toNat = 1 := rfl
  rw [one, Nat.mod_eq_of_lt (show n < 2 ^ 64 by omega), Nat.mod_eq_of_lt half,
    Nat.mod_eq_of_lt (show n + 1 < 2 ^ 64 by omega), Nat.mod_eq_of_lt product, pow_one]

theorem turnSteps_le (m : Nat) : 16 ≤ turnSteps m := by
  unfold turnSteps
  split <;> decide

theorem loop_turn (kept : Kept answers marker) (modes : m ≤ 3)
    (holds : Holds marker n (BitVec.ofNat 64 m) (BitVec.ofNat 64 k) (BitVec.ofNat 64 (upTo k)) s) :
    ∃ t, Passes answers 1 (turnSteps m - 1) (listing.place .sched_loop, s) (listing.place .sched_next, t) ∧
      Holds marker n (BitVec.ofNat 64 m) (BitVec.ofNat 64 (k + 1)) (BitVec.ofNat 64 (upTo (k + 1))) t := by
  obtain ⟨t, head, holds⟩ := loop_head answers holds
  obtain ⟨t', body, holds⟩ := mode_path kept modes holds
  have some_ := turnSteps_le m
  refine ⟨t', (head.trans body).mono (by omega), ?_⟩
  rw [upTo_succ, BitVec.ofNat_add (upTo k), BitVec.ofNat_add k 1]
  exact holds

/-- From the head of the loop with `left + 1` turns to go. -/
theorem loop_runs (kept : Kept answers marker) (modes : m ≤ 3) (fits : n < 2 ^ 64) (left k : Nat)
    (total : k + left + 1 = n)
    (holds : Holds marker (BitVec.ofNat 64 n) (BitVec.ofNat 64 m) (BitVec.ofNat 64 k)
      (BitVec.ofNat 64 (upTo k)) s) :
    ∃ t, Passes answers (left + 1) ((left + 1) * turnSteps m) (listing.place .sched_loop, s)
        (listing.place .sched_next + 1, t) ∧
      Holds marker (BitVec.ofNat 64 n) (BitVec.ofNat 64 m) (BitVec.ofNat 64 n) (BitVec.ofNat 64 (upTo n)) t := by
  have some_ := turnSteps_le m
  induction left generalizing k s with
  | zero =>
    obtain rfl : k + 1 = n := by omega
    obtain ⟨t, turn, holds⟩ := loop_turn kept modes holds
    have leave : ¬ t.x s2 < t.x s1 := by
      rw [holds.count, holds.limit]
      exact BitVec.lt_irrefl _
    have out : Passes answers 0 1 (listing.place .sched_next, t) (listing.place .sched_next + 1, t) :=
      ⟨_, goes rfl rfl (if_neg leave) .nil, by decide, by decide, by decide⟩
    exact ⟨t, (turn.trans out).mono (by omega), holds⟩
  | succ left ih =>
    obtain ⟨t, turn, next⟩ := loop_turn kept modes holds
    have more : t.x s2 < t.x s1 := by
      rw [next.count, next.limit, BitVec.lt_def, BitVec.toNat_ofNat, BitVec.toNat_ofNat]
      omega
    have back : Passes answers 0 1 (listing.place .sched_next, t) (listing.place .sched_loop, t) :=
      ⟨_, jumps rfl rfl (if_pos more) .nil, by decide, by decide, by decide⟩
    obtain ⟨t', rest, holds⟩ := ih (k + 1) (by omega) next
    have all := (turn.trans back).trans rest
    rw [Nat.add_zero, Nat.add_comm 1] at all
    refine ⟨t', all.mono ?_, holds⟩
    rw [Nat.add_mul (left + 1) 1, Nat.one_mul]
    omega

/-- The program alone, from its entry to its exit. -/
theorem program_exits (kept : Kept answers (s.x s0)) (positive : 1 ≤ n) (fits : n < 2 ^ 32) (modes : m ≤ 3)
    (limit : s.x s1 = BitVec.ofNat 64 n) (kind : s.x s4 = BitVec.ofNat 64 m) :
    ∃ t, Passes answers n (n * turnSteps m + 11) (listing.place .sched_entry, s) (listing.place .sched_next + 7, t) ∧
      t.x a7 = 2 ∧ t.x a0 = 0 ∧ t.x s3 = BitVec.ofNat 64 (upTo n) := by
  obtain ⟨t, entry, start⟩ := program_enters answers s
  rw [limit, kind] at start
  obtain ⟨t', loop, holds⟩ := loop_runs (n := n) (k := 0) kept modes (by omega) (n - 1) (by omega) start
  obtain ⟨-, limit, -, -, -, -, total⟩ := holds
  have check := checksum_closed fits
  have last : Passes answers 0 6 (listing.place .sched_next + 1, t') (listing.place .sched_next + 7, _) :=
    ⟨_, goes rfl rfl rfl <| goes rfl rfl rfl <| goes rfl rfl rfl <|
      goes rfl rfl (by simpa [Instr.target, Instr.run, total, limit] using check.symm) <|
      goes rfl rfl rfl <| goes rfl rfl rfl .nil, by decide, by decide, by decide⟩
  have all := (entry.trans loop).trans last
  rw [Nat.zero_add, Nat.add_zero, Nat.sub_add_cancel positive] at all
  exact ⟨_, all.mono (by omega), by simp [Instr.run], by simp [Instr.run], by simpa [Instr.run] using total⟩

/-! ### The same among traps -/

theorem fetch_at (p : Placement) {k : Nat} {i : Instr Label} (here : listing.code[k]? = some i) :
    p.fetch (p.addr k) = some (i, k) := by
  have inside : k < listing.code.length := (List.getElem?_eq_some_iff.mp here).1
  have member : (i, k) ∈ listing.code.zipIdx := List.mk_mem_zipIdx_iff_getElem?.mpr here
  cases found : p.fetch (p.addr k) with
  | none => exact absurd (decide_eq_true rfl) (List.find?_eq_none.mp found (i, k) member)
  | some line =>
    obtain ⟨j, l⟩ := line
    have there : listing.code[l]? = some j := List.mk_mem_zipIdx_iff_getElem?.mp (List.mem_of_find?_eq_some found)
    have same : p.addr l = p.addr k :=
      of_decide_eq_true (List.find?_some (p := fun line : Instr Label × Nat => p.addr line.2 = p.addr k) found)
    obtain rfl := p.apart l (List.getElem?_eq_some_iff.mp there).1 k inside same
    obtain rfl := Option.some.inj (here.symm.trans there)
    rfl

theorem machine_plain (p : Placement) {elsewhere : Machine Memory} {k : Nat} {i : Instr Label}
    {u : User Memory} (here : listing.code[k]? = some i) (plain : i.Traps = false) (pc : u.pc = p.addr k) :
    p.machine elsewhere u = .next ⟨(i.run (Placement.hart u)).x, (i.run (Placement.hart u)).zero,
      p.addr (((i.target (Placement.hart u)).map listing.place).getD (k + 1)),
      (i.run (Placement.hart u)).mem⟩ := by
  unfold Placement.machine
  rw [pc, fetch_at p here]
  cases i <;> first | rfl | cases plain

theorem machine_ecall (p : Placement) {elsewhere : Machine Memory} {k : Nat} {u : User Memory}
    (here : listing.code[k]? = some .ecall) (pc : u.pc = p.addr k) : p.machine elsewhere u = .trap 8 := by
  unfold Placement.machine
  rw [pc, fetch_at p here]

/-- A place of the listing and where the real task is: traps have left it its
registers and its word. -/
structure Tracks (p : Placement) (c : Nat × Hart) (u : User Memory) : Prop where
  pc : u.pc = p.addr c.1
  alike : Alike c.2 (Placement.hart u)

theorem Tracks.resumed (tracks : Tracks p c u) (resumed : Resumed u v) : Tracks p c v := by
  refine ⟨resumed.pc.trans tracks.pc, tracks.alike.x.trans resumed.x.symm, tracks.alike.word.trans ?_⟩
  refine Eq.trans resumed.word.symm ?_
  rw [← resumed.x]
  rfl

theorem own_word {k : Nat} {i : Instr Label} (inside : k < listing.place .sched_timer_wait)
    (here : listing.code[k]? = some i) : i.OwnWord = true := by
  have all : (listing.code.take (listing.place .sched_timer_wait)).all Instr.OwnWord = true := by decide
  refine List.all_eq_true.mp all i (List.mem_of_getElem? (i := k) ?_)
  rw [List.getElem?_take_of_lt inside]
  exact here

theorem Tracks.answered (tracks : Tracks p c u) (here : listing.code[c.1]? = some .ecall)
    (returned : Returned u result v) : Tracks p (c.1 + 1, c.2.set a0 result) v := by
  have registers : (c.2.set a0 result).x = v.x := by
    funext q
    rw [returned.x, Hart.set_x, tracks.alike.x]
    by_cases same : q = a0
    · rw [same, if_pos ⟨rfl, by decide⟩, Function.update_self]
    · rw [if_neg fun both => same both.1, Function.update_of_ne same]
      rfl
  have pointer : v.x sp = u.x sp := by rw [returned.x, Function.update_of_ne (by decide)]
  refine ⟨?_, registers, ?_⟩
  · rw [returned.pc, tracks.pc, p.ecall c.1 here]
  · have word : load v.stack (v.x sp) = load u.stack (u.x sp) := by rw [pointer, returned.word]
    rw [Hart.set_mem, Hart.set_x, if_neg (by decide)]
    exact tracks.alike.word.trans word.symm

theorem Tracks.follows (tracks : Tracks p c u) (inside : k < listing.place .sched_timer_wait)
    (step : Steps listing answers c k c') (proceeds : Proceeds (p.machine elsewhere) answers u address w) :
    address = p.addr k ∧ Tracks p c' w := by
  have cases_ := steps_cases step
  obtain ⟨rfl, -⟩ := step
  cases proceeds with
  | @next v _ resumed ran =>
    have tracks := tracks.resumed resumed
    refine ⟨tracks.pc, ?_⟩
    rcases cases_ with ⟨i, here, plain, rfl⟩ | ⟨result, here, answered, rfl⟩
    · rw [machine_plain p here plain tracks.pc] at ran
      cases ran
      refine ⟨?_, tracks.alike.run (own_word inside here)⟩
      rw [tracks.alike.target]
    · rw [machine_ecall p here tracks.pc] at ran
      cases ran
  | @call v _ _ resumed ecall promise returned =>
    have tracks := tracks.resumed resumed
    refine ⟨tracks.pc, ?_⟩
    rcases cases_ with ⟨i, here, plain, rfl⟩ | ⟨result, here, answered, rfl⟩
    · rw [machine_plain p here plain tracks.pc] at ecall
      cases ecall
    · rw [tracks.alike.x] at answered
      obtain rfl := Option.some.inj (answered.symm.trans promise)
      exact tracks.answered here returned

/-- The instruction at hand does not trap, or it is a call that returns. -/
def GoesOn (machine : Machine Memory) (answers : Word → Word → Option Word) (v : User Memory) : Prop :=
  (∃ w, machine v = .next w) ∨ (machine v = .trap 8 ∧ ∃ result, answers (v.x a7) (v.x a0) = some result)

theorem GoesOn.proceeds {machine : Machine Memory} (on : GoesOn machine answers v) :
    ∃ address w, Proceeds machine answers v address w := by
  have here : Resumed v v := ⟨rfl, rfl, rfl⟩
  rcases on with ⟨w, ran⟩ | ⟨ecall, result, answered⟩
  · exact ⟨_, w, .next here ran⟩
  · exact ⟨_, v.answered result, .call here ecall answered ⟨rfl, rfl, rfl⟩⟩

theorem Tracks.goes_on (tracks : Tracks p c u) (step : Steps listing answers c k c') :
    GoesOn (p.machine elsewhere) answers u := by
  rcases steps_cases step with ⟨i, line, plain, -⟩ | ⟨result, line, answered, -⟩
  · obtain ⟨rfl, -⟩ := step
    exact .inl ⟨_, machine_plain p line plain tracks.pc⟩
  · obtain ⟨rfl, -⟩ := step
    rw [tracks.alike.x] at answered
    exact .inr ⟨machine_ecall p line tracks.pc, result, answered⟩

/-- The exit that ends the program well. -/
theorem Tracks.exits (tracks : Tracks p (listing.place .sched_next + 7, t) u) (elsewhere : Machine Memory)
    (kept : Kept answers marker) (number : t.x a7 = 2) (code : t.x a0 = 0) :
    p.machine elsewhere u = .trap 8 ∧ Syscall.dispatch (u.x a7) (u.x a0) = .exit 0 ∧
      ∀ address v, ¬ Proceeds (p.machine elsewhere) answers u address v := by
  have here : listing.code[listing.place .sched_next + 7]? = some .ecall := rfl
  have exit : p.machine elsewhere u = .trap 8 := machine_ecall p here tracks.pc
  have same : t.x = u.x := tracks.alike.x
  rw [same] at number code
  refine ⟨exit, by rw [number, code]; rfl, ?_⟩
  intro address v proceeds
  cases proceeds with
  | @next v _ resumed ran =>
    rw [machine_ecall p here (tracks.resumed resumed).pc] at ran
    cases ran
  | @call v _ _ resumed ecall answered returned =>
    rw [resumed.x, number, code, kept.exit] at answered
    cases answered

/-- Whatever interrupts it, the task goes along one fixed list of places before
`sched_timer_wait`, and at the end of the list it exits well. -/
theorem runs_on (p : Placement) (elsewhere : Machine Memory) {u : User Memory} (kept : Kept answers (u.x s0))
    (positive : 1 ≤ n) (fits : n < 2 ^ 32) (modes : m ≤ 3) (entry : u.pc = p.at_ .sched_entry)
    (limit : u.x s1 = BitVec.ofNat 64 n) (kind : u.x s4 = BitVec.ofNat 64 m) :
    ∃ whole : List Nat, (∀ k ∈ whole, k < listing.place .sched_timer_wait) ∧
      whole.count (listing.place .sched_loop) = n ∧ whole.length ≤ n * turnSteps m + 11 ∧
      ∀ pcs v, Run (Proceeds (p.machine elsewhere) answers) u pcs v →
        ∃ before rest, whole = before ++ rest ∧ pcs = before.map p.addr ∧
          (∃ k < listing.place .sched_timer_wait, v.pc = p.addr k) ∧
          (rest ≠ [] → GoesOn (p.machine elsewhere) answers v) ∧
          (rest = [] → v.x s3 = BitVec.ofNat 64 (upTo n) ∧ p.machine elsewhere v = .trap 8 ∧
            Syscall.dispatch (v.x a7) (v.x a0) = .exit 0) := by
  obtain ⟨t, ⟨whole, run, inside, turns, length⟩, number, code, sum⟩ :=
    program_exits (s := Placement.hart u) kept positive fits modes limit kind
  refine ⟨whole, inside, turns, length, fun pcs v real => ?_⟩
  have start : Tracks p (listing.place .sched_entry, Placement.hart u) u := ⟨entry, ⟨rfl, rfl⟩⟩
  obtain ⟨before, m, rest, split, labels, ahead, here⟩ := run.tracks (Tracks p) p.addr start
    (fun _ e _ _ _ _ member related step proceeds => related.follows (inside e member) step proceeds)
    (fun v address w related => (related.exits elsewhere kept number code).2.2 address w) real
  refine ⟨before, rest, split, labels, ?_, ?_, ?_⟩
  · cases rest with
    | nil =>
      obtain rfl := ahead.of_nil
      exact ⟨listing.place .sched_next + 7, by decide, here.pc⟩
    | cons e rest =>
      obtain ⟨_, ⟨rfl, -⟩, -⟩ := ahead.uncons
      exact ⟨m.1, inside m.1 (by simp [split]), here.pc⟩
  · intro more
    cases rest with
    | nil => exact absurd rfl more
    | cons e rest =>
      obtain ⟨_, step, -⟩ := ahead.uncons
      exact here.goes_on step
  · rintro rfl
    obtain rfl := ahead.of_nil
    obtain ⟨exit, dispatched, -⟩ := here.exits elsewhere kept number code
    exact ⟨(congrFun here.alike.x s3).symm.trans sum, exit, dispatched⟩

theorem Placement.count_map (p : Placement) {ks : List Nat} {l : Nat} (inside : ∀ k ∈ ks, k < listing.code.length)
    (known : l < listing.code.length) : (ks.map p.addr).count (p.addr l) = ks.count l := by
  induction ks with
  | nil => rfl
  | cons k ks ih =>
    rw [List.map_cons, List.count_cons, List.count_cons, ih fun j later => inside j (List.mem_cons_of_mem k later)]
    by_cases same : k = l
    · rw [same]
      simp
    · have apart : p.addr k ≠ p.addr l := fun equal => same (p.apart k (inside k List.mem_cons_self) l known equal)
      simp [same, apart]

theorem promised_kept (marker : Word) : Kept promised marker := by
  constructor <;> simp [promised]

/-- The user program raises no false alarm, whatever its marker. With timer
interrupts anywhere and anything done to memory but its own word, it goes
through the loop once for each iteration and no more, never reaches
`sched_fail`, and comes to an exit with code 0. By then its sum is the closed
form, as the program computes it and as it is. -/
theorem no_false_alarm (p : Placement) (elsewhere : Machine Memory) (n m : Nat) (positive : 1 ≤ n)
    (fits : n < 2 ^ 32) (modes : m ≤ 3) (u : User Memory) (entry : u.pc = p.at_ .sched_entry)
    (limit : u.x s1 = BitVec.ofNat 64 n) (kind : u.x s4 = BitVec.ofNat 64 m) :
    ∃ steps, ∀ pcs v, Run (Proceeds (p.machine elsewhere) promised) u pcs v →
      pcs.length ≤ steps ∧ p.at_ .sched_fail ∉ v.pc :: pcs ∧ pcs.count (p.at_ .sched_loop) ≤ n ∧
      ((∃ address w, Proceeds (p.machine elsewhere) promised v address w) ∨
        (p.machine elsewhere v = .trap 8 ∧ Syscall.dispatch (v.x a7) (v.x a0) = .exit 0 ∧
          pcs.count (p.at_ .sched_loop) = n ∧
          v.x s3 = ((BitVec.ofNat 64 n + 1) * BitVec.ofNat 64 n) >>> 1 ∧
          v.x s3 = BitVec.ofNat 64 (∑ i ∈ Finset.range (n + 1), i))) := by
  obtain ⟨whole, inside, turns, -, follows⟩ :=
    runs_on p elsewhere (promised_kept (u.x s0)) positive fits modes entry limit kind
  refine ⟨whole.length, fun pcs v run => ?_⟩
  obtain ⟨before, rest, rfl, rfl, here, more, last⟩ := follows pcs v run
  have short : listing.place .sched_timer_wait < listing.code.length := by decide
  have early (k : Nat) (member : k ∈ before) : k < listing.place .sched_timer_wait :=
    inside k (List.mem_append_left rest member)
  have count : (before.map p.addr).count (p.at_ .sched_loop) = before.count (listing.place .sched_loop) :=
    p.count_map (fun k member => (early k member).trans short) (by decide)
  have fine (k : Nat) (before_ : k < listing.place .sched_timer_wait) : p.addr k ≠ p.at_ .sched_fail := by
    intro same
    obtain rfl := p.apart k (before_.trans short) _ (by decide) same
    exact absurd before_ (by decide)
  rw [List.count_append] at turns
  refine ⟨by simp, ?_, by omega, ?_⟩
  · intro member
    rcases List.mem_cons.mp member with now | earlier
    · obtain ⟨k, before_, at_⟩ := here
      exact fine k before_ (at_.symm.trans now.symm)
    · obtain ⟨k, member, same⟩ := List.mem_map.mp earlier
      exact fine k (early k member) same
  · by_cases done : rest = []
    · obtain ⟨sum, exit, dispatched⟩ := last done
      refine .inr ⟨exit, dispatched, ?_, sum.trans (checksum_closed fits).symm, sum⟩
      rw [count, ← turns, done]
      simp
    · exact .inl (more done).proceeds

/-- Bytes of a line without compression: a long immediate takes two instructions. -/
def bytes : Instr Label → Nat
  | .li _ imm => if -2048 ≤ imm ∧ imm < 2048 then 4 else 8
  | _ => 4

/-- The program at `0x80400000`. -/
def uncompressed : Placement where
  addr k := 0x80400000 + BitVec.ofNat 64 ((listing.code.take k).map bytes).sum
  apart := by decide +kernel
  ecall k here := by
    have line : listing.code.take (k + 1) = listing.code.take k ++ [.ecall] := by
      rw [List.take_add_one, here]
      rfl
    rw [line, List.map_append, List.sum_append, BitVec.ofNat_add, ← BitVec.add_assoc]
    rfl

/-- Task A of a batch about to run three iterations in mode 0. -/
def taskA : User Memory where
  x r := if r = s0 then 0x41 else if r = s1 then 3 else if r = sp then 0x803ffff0 else 0
  zero := rfl
  pc := uncompressed.at_ .sched_entry
  stack _ := 0

theorem no_false_alarm_taskA : ∃ steps, ∀ pcs v,
    Run (Proceeds (uncompressed.machine fun _ => .trap 1) promised) taskA pcs v →
      pcs.length ≤ steps ∧ ((∃ address w, Proceeds (uncompressed.machine fun _ => .trap 1) promised v address w) ∨
        (pcs.count (uncompressed.at_ .sched_loop) = 3 ∧ v.x s3 = 6)) := by
  obtain ⟨steps, all⟩ := no_false_alarm uncompressed (fun _ => .trap 1) 3 0 (by decide) (by decide) (by decide)
    taskA rfl rfl rfl
  refine ⟨steps, fun pcs v run => ?_⟩
  obtain ⟨short, -, -, ends⟩ := all pcs v run
  refine ⟨short, ends.imp_right ?_⟩
  rintro ⟨-, -, turns, -, sum⟩
  exact ⟨turns, sum⟩

end Neonos.UserScheduler
