import Neonos.MlfqTrace
import Neonos.SchedulingTable

/-! Both simulators implement the same round robin: a slice of the scheduling
simulator with quantum 2 is one or two ticks of the MLFQ simulator under its RR
policy, on the same queue. -/
namespace Neonos.SameRoundRobin
open Scheduling (unitTicks)
open WhileLoop SortedLine

/-- The same jobs for both simulators, without voluntary scheduling points. -/
structure Same (w : Scheduling.Workload n) (v : Mlfq.Workload n) : Prop where
  name : v.name = w.name
  arrival : v.arrival = w.arrival
  service : v.service = w.service
  burst : ∀ i, v.burst i = 0
  wait : ∀ i, v.wait i = 0

/-- The same queue, clock, work and trace on both sides. `run` is the job that
has the processor. -/
structure Alike (run : Option (Fin n)) (s : Scheduling.State n) (m : Mlfq.State n) : Prop where
  now : m.now = s.now
  ready : m.ready = s.ready
  current : m.current = run
  coming : ∀ i, (m.entries i).phase = .new ↔ i ∈ s.pending
  left : ∀ i, (m.entries i).left = s.remaining i
  first : ∀ i, (m.entries i).first = s.first i
  done : ∀ i, (m.entries i).done = s.done i
  level : ∀ i, (m.entries i).level = 0
  slice : ∀ i, run ≠ some i → (m.entries i).left = 0 ∨ (m.entries i).slice = 2
  trace : m.trace = (unitTicks s.trace).map fun e => ⟨e.1, e.2, 0⟩

variable {w : Scheduling.Workload n} {v : Mlfq.Workload n} {s a : Scheduling.State n}
  {m b : Mlfq.State n} {run : Option (Fin n)} {i : Fin n} {rest : List (Fin n)} {period : Nat}

theorem start_alike (same : Same w v) (period : Nat) : Alike none w.start (v.start period) := by
  refine ⟨rfl, rfl, rfl, fun i => ?_, fun i => congrFun same.service i, fun i => rfl, fun i => rfl,
    fun i => rfl, fun i _ => .inr rfl, rfl⟩
  simp [Mlfq.Workload.start, Scheduling.Workload.start, List.mem_insertionSort]

/-! ### Arrivals -/

/-- Without bursts nobody is ever blocked. -/
theorem asleep (same : Same w v) (kept : Mlfq.Kept v m) (i : Fin n) :
    (m.entries i).Sleeps ↔ (m.entries i).phase = .new := by
  refine ⟨fun sleeps => ?_, .inl⟩
  rcases sleeps with new | blocked
  · exact new
  · obtain ⟨x, last, whole, -⟩ := (kept.fits i).blocked blocked
    rw [same.burst, Nat.zero_dvd, List.length_eq_zero_iff] at whole
    rw [whole] at last
    cases last

/-- A job still to come has all its work left and wakes when it arrives. -/
theorem Alike.fresh (alike : Alike run s m) (same : Same w v) (kept : Mlfq.Kept v m) (coming : i ∈ s.pending) :
    (m.entries i).wake = w.arrival i ∧ (m.entries i).left = w.service i ∧ s.now ≤ w.arrival i := by
  have new := (alike.coming i).mpr coming
  have fits := kept.fits i
  obtain ⟨ticks, wake⟩ := fits.new new
  have early := kept.early i (.inl new)
  have account := fits.left
  rw [fits.used, ticks] at account
  rw [wake, alike.now] at early
  rw [← same.arrival, ← same.service]
  exact ⟨wake, account, early⟩

/-- Both scans take in the same jobs, all of them at the very time they arrive. -/
theorem Alike.due (alike : Alike run s m) (same : Same w v) (kept : Mlfq.Kept v m) (i : Fin n) :
    ((m.entries i).Sleeps ∧ (m.entries i).wake ≤ m.now) ↔ i ∈ s.pending ∧ w.arrival i ≤ s.now := by
  rw [asleep same kept, alike.coming]
  refine and_congr_right fun coming => ?_
  rw [(alike.fresh same kept coming).1, alike.now]

theorem Alike.scan (alike : Alike run s m) (same : Same w v) (kept : Mlfq.Kept v m)
    (sorted : s.pending.Pairwise fun i j => w.joins i < w.joins j) : Alike run (w.arrive s) m.scan := by
  obtain ⟨now, remaining, trace, pending, ready, first, done⟩ := Scheduling.arrive_arrived w s
  have due (i : Fin n) : ((m.entries i).Sleeps ∧ (m.entries i).wake ≤ m.now) ↔ i ∈ w.came s := by
    rw [alike.due same kept, Scheduling.came_filter sorted]
    simp
  have came (i : Fin n) : i ∈ w.came s ↔ i ∈ s.pending ∧ w.arrival i ≤ s.now := by
    rw [Scheduling.came_filter sorted]
    simp
  have empty (i : Fin n) (member : i ∈ w.came s) : (m.entries i).left = 0 ↔ w.service i = 0 := by
    rw [(alike.fresh same kept ((came i).mp member).1).2.1]
  have sharp (i : Fin n) (member : i ∈ w.came s) : m.now = w.arrival i := by
    obtain ⟨coming, past⟩ := (came i).mp member
    rw [alike.now]
    exact le_antisymm (alike.fresh same kept coming).2.2 past
  -- By input order on one side and by arrival on the other, but they all arrive now.
  have queued : ((List.finRange n).filter fun i => Mlfq.Rises m.now (m.entries i)) =
      (w.came s).filter fun i => w.service i ≠ 0 := by
    have member (i : Fin n) : i ∈ (List.finRange n).filter (fun i => Mlfq.Rises m.now (m.entries i)) ↔
        i ∈ (w.came s).filter fun i => w.service i ≠ 0 := by
      have rises : Mlfq.Rises m.now (m.entries i) ↔ i ∈ w.came s ∧ w.service i ≠ 0 :=
        (and_congr_left fun _ => due i).trans (and_congr_right fun member => not_congr (empty i member))
      simp [rises]
    have byArrival : ((w.came s).filter fun i => w.service i ≠ 0).Pairwise fun i j => w.joins i < w.joins j := by
      rw [Scheduling.came_filter sorted]
      exact (sorted.sublist List.filter_sublist).sublist List.filter_sublist
    have byInput : ((List.finRange n).filter fun i => Mlfq.Rises m.now (m.entries i)).Pairwise
        fun i j => w.joins i < w.joins j := by
      refine ((List.pairwise_lt_finRange n).sublist List.filter_sublist).imp_of_mem fun first second before => ?_
      have now := sharp _ (List.mem_of_mem_filter ((member _).mp first))
      have now' := sharp _ (List.mem_of_mem_filter ((member _).mp second))
      exact Prod.Lex.toLex_lt_toLex.mpr (.inr ⟨now.symm.trans now', before⟩)
    exact eq_of_mem_iff byInput byArrival member
  have away (i : Fin n) (other : i ∉ w.came s) : m.scan.entries i = m.entries i := by
    rw [Mlfq.scan_entries, Mlfq.woken, if_neg fun both => other ((due i).mp both)]
  have stopped (i : Fin n) (member : i ∈ w.came s) (zero : w.service i = 0) : m.scan.entries i =
      { m.entries i with first := some m.now, done := some m.now, phase := .done } := by
    rw [Mlfq.scan_entries, Mlfq.woken, if_pos ((due i).mpr member), if_pos ((empty i member).mpr zero)]
  have rises (i : Fin n) (member : i ∈ w.came s) (some : w.service i ≠ 0) : m.scan.entries i =
      { m.entries i with phase := .ready, readyAt := m.now } := by
    rw [Mlfq.scan_entries, Mlfq.woken, if_pos ((due i).mpr member), if_neg (mt (empty i member).mp some)]
  have each (i : Fin n) : (m.scan.entries i = m.entries i ∧ i ∉ w.came s) ∨
      (i ∈ w.came s ∧ w.service i = 0 ∧ m.scan.entries i =
        { m.entries i with first := some m.now, done := some m.now, phase := .done }) ∨
      (i ∈ w.came s ∧ w.service i ≠ 0 ∧ m.scan.entries i = { m.entries i with phase := .ready, readyAt := m.now }) := by
    by_cases member : i ∈ w.came s
    · by_cases zero : w.service i = 0
      · exact .inr (.inl ⟨member, zero, stopped i member zero⟩)
      · exact .inr (.inr ⟨member, zero, rises i member zero⟩)
    · exact .inl ⟨away i member, member⟩
  have still (i : Fin n) : i ∈ (w.arrive s).pending ↔ i ∈ s.pending ∧ i ∉ w.came s := by
    rw [pending, Scheduling.left_filter sorted, came, List.mem_filter]
    refine and_congr_right fun coming => ?_
    simp [coming]
  refine ⟨?_, ?_, ?_, fun i => ?_, fun i => ?_, fun i => ?_, fun i => ?_, fun i => ?_, fun i other => ?_, ?_⟩
  · rw [Mlfq.scan_now, now, alike.now]
  · rw [Mlfq.scan_ready, ready, alike.ready, queued]
  · rw [Mlfq.scan_current, alike.current]
  · rw [still]
    rcases each i with ⟨same', other⟩ | ⟨member, -, same'⟩ | ⟨member, -, same'⟩ <;> rw [same']
    · simp [other, alike.coming]
    · simp [member]
    · simp [member]
  · rw [remaining]
    rcases each i with ⟨same', -⟩ | ⟨-, -, same'⟩ | ⟨-, -, same'⟩ <;> rw [same'] <;> exact alike.left i
  · rw [first]
    rcases each i with ⟨same', other⟩ | ⟨member, zero, same'⟩ | ⟨member, some, same'⟩
    · rw [same', if_neg fun both => other both.1]
      exact alike.first i
    · rw [same', if_pos ⟨member, zero⟩, ← sharp i member]
    · rw [same', if_neg fun both => some both.2]
      exact alike.first i
  · rw [done]
    rcases each i with ⟨same', other⟩ | ⟨member, zero, same'⟩ | ⟨member, some, same'⟩
    · rw [same', if_neg fun both => other both.1]
      exact alike.done i
    · rw [same', if_pos ⟨member, zero⟩, ← sharp i member]
    · rw [same', if_neg fun both => some both.2]
      exact alike.done i
  · rcases each i with ⟨same', -⟩ | ⟨-, -, same'⟩ | ⟨-, -, same'⟩ <;> rw [same'] <;> exact alike.level i
  · rcases each i with ⟨same', -⟩ | ⟨-, -, same'⟩ | ⟨-, -, same'⟩ <;> rw [same'] <;> exact alike.slice i other
  · rw [Mlfq.scan_trace, trace, alike.trace]

/-! ### A tick -/

/-- The first half of `Scheduling.State.work`: the job leaves the queue. -/
def took (s : Scheduling.State n) (i : Fin n) (rest : List (Fin n)) : Scheduling.State n :=
  { s with ready := rest, first := Function.update s.first i (some ((s.first i).getD s.now)) }

theorem took_work (s : Scheduling.State n) (i : Fin n) (rest : List (Fin n)) (quantum : Nat) :
    (took s i rest).work .rr quantum i rest = s.work .rr quantum i rest := by
  unfold took Scheduling.State.work
  simp only [Function.update_self, Function.update_idem, Option.getD_some]
  rfl

theorem boost_rr (m : Mlfq.State n) (period : Nat) : m.boost .rr period = m := if_neg fun both => by cases both.1

theorem Alike.dispatch (alike : Alike none s m) (kept : Mlfq.Kept v m) (ready : s.ready = i :: rest) :
    Alike (some i) (took s i rest) (m.dispatch .rr) ∧ (m.dispatch .rr).switches = m.switches + 1 ∧
      ((m.dispatch .rr).entries i).slice = 2 := by
  have chosen : m.choose .rr = some i := by
    change m.ready.head? = _
    rw [alike.ready, ready, List.head?_cons]
  have mine : (m.entries i).phase = .ready := (kept.ready i).mp (Mlfq.choose_mem chosen)
  rcases Mlfq.dispatch_cases m .rr with ⟨k, -, chosen', same⟩ | ⟨nobody, -⟩
  · cases chosen.symm.trans chosen'
    have some := (kept.fits i).more (by simp [mine]) (by simp [mine])
    have fresh := (alike.slice i (by simp)).resolve_left some
    rw [same]
    refine ⟨⟨alike.now, ?_, rfl, fun j => ?_, fun j => ?_, fun j => ?_, fun j => ?_, fun j => ?_, fun j other => ?_,
      alike.trace⟩, rfl, by simpa [Mlfq.Entry.taken] using fresh⟩ <;> simp only [took]
    · rw [alike.ready, ready, List.erase_cons_head]
    · by_cases own : j = i
      · subst own
        have away := mt (alike.coming j).mpr (by simp [mine])
        simp [Mlfq.Entry.taken, away]
      · simp [own, alike.coming]
    · by_cases own : j = i
      · subst own
        simp [Mlfq.Entry.taken, alike.left]
      · simp [own, alike.left]
    · by_cases own : j = i
      · subst own
        simp [Mlfq.Entry.taken, alike.first, alike.now]
      · simp [own, alike.first]
    · by_cases own : j = i
      · subst own
        simp [Mlfq.Entry.taken, alike.done]
      · simp [own, alike.done]
    · by_cases own : j = i
      · subst own
        simp [Mlfq.Entry.taken, alike.level]
      · simp [own, alike.level]
    · have own : j ≠ i := by
        rintro rfl
        exact other rfl
      simpa [own] using alike.slice j (by simp)
  · rw [alike.ready, ready] at nobody
    exact absurd (nobody alike.current) (List.cons_ne_nil i rest)

/-- Under RR nobody is demoted, and a slice is two ticks. -/
theorem renew_rr (e : Mlfq.Entry) : e.charge.renew .rr =
    if e.slice = 1 then { e.charge with slice := 2 } else e.charge := by
  have fresh : e.charge.slice = 0 ↔ e.slice = 1 := by
    simp only [Mlfq.Entry.charge]
    omega
  unfold Mlfq.Entry.renew
  rw [if_neg fun demotes => by cases demotes.2.1]
  simp [fresh]

theorem unitTicks_one (trace : List (Scheduling.Slice ι)) (i : ι) (now : Nat) :
    unitTicks (trace ++ [⟨i, now, now + 1⟩]) = unitTicks trace ++ [(now, i)] := by
  simp [unitTicks, Scheduling.Slice.ticks, Scheduling.Slice.length]

theorem unitTicks_two (trace : List (Scheduling.Slice ι)) (i : ι) (now : Nat) :
    unitTicks (trace ++ [⟨i, now, now + 2⟩]) = unitTicks trace ++ [(now, i), (now + 1, i)] := by
  simp [unitTicks, Scheduling.Slice.ticks, Scheduling.Slice.length, List.range']

theorem renew_rr_other (e : Mlfq.Entry) : (e.charge.renew .rr).left = e.left - 1 ∧
    (e.charge.renew .rr).phase = e.phase ∧ (e.charge.renew .rr).first = e.first ∧
    (e.charge.renew .rr).done = e.done ∧ (e.charge.renew .rr).level = e.level := by
  rw [renew_rr]
  split <;> exact ⟨rfl, rfl, rfl, rfl, rfl⟩

theorem never_voluntary (same : Same w v) (i : Fin n) (e : Mlfq.Entry) : ¬ v.Voluntary i e :=
  fun voluntary => voluntary.1 (same.burst i)

theorem leave_plain (same : Same w v) (i : Fin n) (now : Nat) (e : Mlfq.Entry) : v.leave i now e =
    if e.left = 0 then { e with done := some now, phase := .done } else e := by
  unfold Mlfq.Workload.leave
  split
  · rfl
  · rw [if_neg fun both => never_voluntary same i e both.1]

/-- A tick of the MLFQ simulator is a slice of quantum 1, while the job has the processor. -/
theorem Alike.charged (alike : Alike (some i) s m) (same : Same w v) (kept : Mlfq.Kept v m)
    (running : (m.entries i).phase = .running) :
    Alike (some i) (s.work .rr 1 i s.ready) (v.charged .rr m i) := by
  have fits := kept.fits i
  have more := fits.more (by simp [running]) (by simp [running])
  have left := alike.left i
  have one : s.duration .rr 1 i = 1 := by
    simp only [Scheduling.State.duration]
    omega
  have away : i ∉ s.pending := mt (alike.coming i).mpr (by simp [running])
  obtain ⟨x, first⟩ : ∃ x, (m.entries i).first = some x := by
    rw [decide_eq_true alike.current] at fits
    have proper : 0 < v.service i := by
      have account := fits.left
      omega
    rw [fits.first proper]
    cases Mlfq.times m.trace i with
    | nil => exact ⟨m.now, rfl⟩
    | cons x => exact ⟨x, rfl⟩
  have others (j : Fin n) (other : j ≠ i) : (v.charged .rr m i).entries j = m.entries j :=
    Mlfq.charged_others other
  have mine := Mlfq.charged_mine v .rr m i
  rw [leave_plain same] at mine
  obtain ⟨left', phase', first', done', level'⟩ := renew_rr_other (m.entries i)
  obtain ⟨remaining, firsts, dones⟩ := Scheduling.work_mine s .rr 1 i s.ready
  refine ⟨?_, alike.ready, alike.current, fun j => ?_, fun j => ?_, fun j => ?_, fun j => ?_, fun j => ?_,
    fun j other => ?_, ?_⟩
  · change m.now + 1 = s.now + s.duration .rr 1 i
    rw [alike.now, one]
  · change _ ↔ j ∈ s.pending
    by_cases own : j = i
    · subst own
      rw [mine]
      split <;> simp [away, phase', running]
    · rw [others j own, alike.coming]
  · by_cases own : j = i
    · subst own
      rw [mine, remaining, one, ← left]
      split <;> exact left'
    · rw [others j own, (Scheduling.work_others s .rr 1 s.ready own).1, alike.left]
  · by_cases own : j = i
    · subst own
      rw [mine, firsts, ← alike.first, first]
      split <;> exact first'.trans first
    · rw [others j own, (Scheduling.work_others s .rr 1 s.ready own).2.1, alike.first]
  · by_cases own : j = i
    · subst own
      rw [mine, dones, one, left', ← left]
      split
      · rw [alike.now]
      · rw [done', alike.done]
    · rw [others j own, (Scheduling.work_others s .rr 1 s.ready own).2.2, alike.done]
  · by_cases own : j = i
    · subst own
      rw [mine]
      split <;> exact level'.trans (alike.level j)
    · rw [others j own, alike.level]
  · have own : j ≠ i := by
      rintro rfl
      exact other rfl
    rw [others j own]
    exact alike.slice j other
  · change m.trace ++ _ = (unitTicks (s.trace ++ [⟨i, s.now, s.now + s.duration .rr 1 i⟩])).map _
    rw [one, unitTicks_one, List.map_append, alike.trace, alike.level, alike.now]
    rfl

/-- The end of a turn: whoever is not finished goes back to the end of the queue. -/
theorem Alike.giveUp (alike : Alike (some i) s m) (halts : (m.entries i).phase = .running ↔ s.remaining i ≠ 0)
    (slice : s.remaining i = 0 ∨ (m.entries i).slice = 2) : Alike none (s.requeue i) (m.giveUp i) := by
  obtain ⟨now, pending, remaining, first, done, trace⟩ := Scheduling.requeue_other s i
  have fresh (j : Fin n) : (m.entries j).left = 0 ∨ (m.entries j).slice = 2 := by
    by_cases own : j = i
    · subst own
      rwa [alike.left]
    · exact alike.slice j fun equal => own (Option.some.inj equal).symm
  rcases Mlfq.giveUp_cases m i with ⟨running, given⟩ | ⟨halted, given⟩
  · have away : i ∉ s.pending := mt (alike.coming i).mpr (by simp [running])
    rw [given]
    refine ⟨alike.now.trans now.symm, ?_, rfl, fun j => ?_, fun j => ?_, fun j => ?_, fun j => ?_, fun j => ?_,
      fun j _ => ?_, ?_⟩ <;> simp only
    · rw [Scheduling.requeue_ready, if_neg (halts.mp running), alike.ready]
    · rw [pending]
      by_cases own : j = i
      · subst own
        simp [away]
      · simp [own, alike.coming]
    · rw [remaining, ← alike.left]
      apply Mlfq.update_kept Mlfq.Entry.left
      rfl
    · rw [first, ← alike.first]
      apply Mlfq.update_kept Mlfq.Entry.first
      rfl
    · rw [done, ← alike.done]
      apply Mlfq.update_kept Mlfq.Entry.done
      rfl
    · rw [← alike.level j]
      apply Mlfq.update_kept Mlfq.Entry.level
      rfl
    · have fresh := fresh j
      by_cases own : j = i
      · subst own
        simpa using fresh
      · simpa [own] using fresh
    · rw [trace, alike.trace]
  · rw [given]
    have zero : s.remaining i = 0 := by
      by_contra some
      exact halted (halts.mpr some)
    have same : s.requeue i = s := if_pos zero
    rw [same]
    exact ⟨alike.now, alike.ready, rfl, alike.coming, alike.left, alike.first, alike.done, alike.level,
      fun j _ => fresh j, alike.trace⟩

/-! ### A slice -/

/-- A slice of two units of time is two slices of one, with the arrivals of the
first taken in between. -/
theorem Alike.merge (alike : Alike run (w.arrive ((w.arrive (a.work .rr 1 i rest)).work .rr 1 i
      (w.arrive (a.work .rr 1 i rest)).ready)) m)
    (two : 2 ≤ a.remaining i) (away : i ∉ a.pending) : Alike run (w.arrive (a.work .rr 2 i rest)) m := by
  obtain ⟨now₁, remaining₁, -, pending₁, ready₁, first₁, done₁⟩ := Scheduling.arrive_arrived w (a.work .rr 1 i rest)
  have trace₁ := (Scheduling.arrive_arrived w (a.work .rr 1 i rest)).trace
  generalize w.arrive (a.work .rr 1 i rest) = s₁ at *
  obtain ⟨now₂, remaining₂, trace₂, pending₂, ready₂, first₂, done₂⟩ :=
    Scheduling.arrive_arrived w (s₁.work .rr 1 i s₁.ready)
  obtain ⟨now, remaining, trace, pending, ready, first, done⟩ := Scheduling.arrive_arrived w (a.work .rr 2 i rest)
  have one : a.duration .rr 1 i = 1 := by
    simp only [Scheduling.State.duration]
    omega
  have whole : a.duration .rr 2 i = 2 := by
    simp only [Scheduling.State.duration]
    omega
  have left : s₁.remaining i = a.remaining i - 1 := by
    rw [remaining₁, (Scheduling.work_mine a .rr 1 i rest).1, one]
  have one' : s₁.duration .rr 1 i = 1 := by
    simp only [Scheduling.State.duration]
    omega
  have clock : s₁.now = a.now + 1 := now₁.trans (congrArg (a.now + ·) one)
  have clock₂ : (s₁.work .rr 1 i s₁.ready).now = a.now + 2 := by
    change s₁.now + s₁.duration .rr 1 i = _
    rw [clock, one']
  have clock' : (a.work .rr 2 i rest).now = a.now + 2 := congrArg (a.now + ·) whole
  have wider (j : Fin n) : decide (w.arrival j ≤ a.now + 1) → decide (w.arrival j ≤ a.now + 2) := by
    simp only [decide_eq_true_eq]
    omega
  have line : s₁.pending = a.pending.dropWhile fun j => w.arrival j ≤ a.now + 1 := by
    rw [pending₁]
    change a.pending.dropWhile (fun j => decide (w.arrival j ≤ a.now + a.duration .rr 1 i)) = _
    rw [one]
  have split : w.came (a.work .rr 2 i rest) =
      w.came (a.work .rr 1 i rest) ++ w.came (s₁.work .rr 1 i s₁.ready) := by
    unfold Scheduling.Workload.came
    rw [clock', clock₂]
    change a.pending.takeWhile _ = a.pending.takeWhile (fun j => decide (w.arrival j ≤ a.now + a.duration .rr 1 i)) ++
      s₁.pending.takeWhile _
    rw [one, line]
    exact takeWhile_twice wider a.pending
  have unseen : i ∉ w.came (a.work .rr 2 i rest) := fun member => away ((List.takeWhile_sublist _).mem member)
  rw [split, List.mem_append, not_or] at unseen
  have opened : s₁.first i = some ((a.first i).getD a.now) := by
    rw [first₁, if_neg fun both => unseen.1 both.1, (Scheduling.work_mine a .rr 1 i rest).2.1]
  have undone : s₁.done i = a.done i := by
    rw [done₁, if_neg fun both => unseen.1 both.1, (Scheduling.work_mine ..).2.2, one, if_neg (by omega)]
  have sameNow : (w.arrive (s₁.work .rr 1 i s₁.ready)).now = (w.arrive (a.work .rr 2 i rest)).now := by
    rw [now₂, now, clock₂, clock']
  have sameReady : (w.arrive (s₁.work .rr 1 i s₁.ready)).ready = (w.arrive (a.work .rr 2 i rest)).ready := by
    rw [ready₂, ready, split, List.filter_append, ← List.append_assoc]
    exact congrArg (· ++ _) ready₁
  have samePending : (w.arrive (s₁.work .rr 1 i s₁.ready)).pending = (w.arrive (a.work .rr 2 i rest)).pending := by
    rw [pending₂, pending, clock₂, clock']
    change s₁.pending.dropWhile _ = a.pending.dropWhile _
    rw [line]
    exact (dropWhile_twice wider a.pending).symm
  have sameRemaining : (w.arrive (s₁.work .rr 1 i s₁.ready)).remaining = (w.arrive (a.work .rr 2 i rest)).remaining := by
    rw [remaining₂, remaining]
    funext j
    by_cases own : j = i
    · subst own
      rw [(Scheduling.work_mine ..).1, (Scheduling.work_mine ..).1, left, one', whole]
      omega
    · rw [(Scheduling.work_others _ _ _ _ own).1, (Scheduling.work_others _ _ _ _ own).1, remaining₁,
        (Scheduling.work_others _ _ _ _ own).1]
  have sameFirst (j : Fin n) : (w.arrive (s₁.work .rr 1 i s₁.ready)).first j =
      (w.arrive (a.work .rr 2 i rest)).first j := by
    rw [first₂, first, split]
    by_cases own : j = i
    · subst own
      rw [if_neg fun both => unseen.2 both.1, if_neg (by simp [unseen]), (Scheduling.work_mine ..).2.1,
        (Scheduling.work_mine ..).2.1, opened, Option.getD_some]
    · rw [(Scheduling.work_others _ _ _ _ own).2.1, (Scheduling.work_others _ _ _ _ own).2.1, first₁,
        (Scheduling.work_others _ _ _ _ own).2.1]
      by_cases soon : j ∈ w.came (a.work .rr 1 i rest) <;>
        by_cases later : j ∈ w.came (s₁.work .rr 1 i s₁.ready) <;>
          by_cases zero : w.service j = 0 <;> simp [soon, later, zero]
  have sameDone (j : Fin n) : (w.arrive (s₁.work .rr 1 i s₁.ready)).done j =
      (w.arrive (a.work .rr 2 i rest)).done j := by
    rw [done₂, done, split]
    by_cases own : j = i
    · subst own
      rw [if_neg fun both => unseen.2 both.1, if_neg (by simp [unseen]), (Scheduling.work_mine ..).2.2,
        (Scheduling.work_mine ..).2.2, left, one', whole, clock, undone, Nat.sub_sub]
    · rw [(Scheduling.work_others _ _ _ _ own).2.2, (Scheduling.work_others _ _ _ _ own).2.2, done₁,
        (Scheduling.work_others _ _ _ _ own).2.2]
      by_cases soon : j ∈ w.came (a.work .rr 1 i rest) <;>
        by_cases later : j ∈ w.came (s₁.work .rr 1 i s₁.ready) <;>
          by_cases zero : w.service j = 0 <;> simp [soon, later, zero]
  have sameTicks : unitTicks (w.arrive (s₁.work .rr 1 i s₁.ready)).trace =
      unitTicks (w.arrive (a.work .rr 2 i rest)).trace := by
    rw [trace₂, trace]
    change unitTicks (s₁.trace ++ [⟨i, s₁.now, s₁.now + s₁.duration .rr 1 i⟩]) =
      unitTicks (a.trace ++ [⟨i, a.now, a.now + a.duration .rr 2 i⟩])
    rw [one', whole, unitTicks_one, unitTicks_two, trace₁]
    change unitTicks (a.trace ++ [⟨i, a.now, a.now + a.duration .rr 1 i⟩]) ++ _ = _
    rw [one, unitTicks_one, clock, List.append_assoc]
    rfl
  refine ⟨alike.now.trans sameNow, alike.ready.trans sameReady, alike.current, fun j => ?_, fun j => ?_,
    fun j => (alike.first j).trans (sameFirst j), fun j => (alike.done j).trans (sameDone j), alike.level,
    alike.slice, ?_⟩
  · rw [alike.coming, samePending]
  · rw [alike.left, sameRemaining]
  · rw [alike.trace, sameTicks]

/-- The entry of the current job after its tick. -/
theorem spend_mine (same : Same w v) (running : (m.entries i).phase = .running) : (v.spend .rr m i).entries i =
    if (m.entries i).left - 1 = 0 then
      { (m.entries i).charge.renew .rr with done := some (m.now + 1), phase := .done }
    else (m.entries i).charge.renew .rr := by
  obtain ⟨left, phase, -⟩ := renew_rr_other (m.entries i)
  rw [Mlfq.spend_eq, Mlfq.scan_entries, Mlfq.charged_mine, leave_plain same]
  by_cases none : (m.entries i).left - 1 = 0
  · rw [if_pos (left.trans none), if_pos none, Mlfq.woken_awake (by simp [Mlfq.Entry.Sleeps])]
  · rw [if_neg (left ▸ none), if_neg none, Mlfq.woken_awake (by simp [Mlfq.Entry.Sleeps, phase, running])]

/-- The last tick of a slice: the job finishes, or its slice has run out. -/
theorem Alike.lastTick (alike : Alike (some i) s (v.spend .rr m i)) (same : Same w v)
    (running : (m.entries i).phase = .running) (last : (m.entries i).left = 1 ∨ (m.entries i).slice = 1)
    (left : s.remaining i = (m.entries i).left - 1) : Alike none (s.requeue i) (v.tick .rr m i) := by
  have mine := spend_mine same running
  obtain ⟨left', phase', -⟩ := renew_rr_other (m.entries i)
  have stopped : v.tick .rr m i = (v.spend .rr m i).giveUp i := by
    rw [Mlfq.tick_eq, if_pos]
    rcases last with one | one
    · exact .inl (by simp [Mlfq.Entry.charge, one])
    · exact .inr (.inr (.inl (.inr (by simp [Mlfq.Entry.charge, one]))))
  rw [stopped]
  apply alike.giveUp
  · rw [mine, left]
    split <;> simp [*]
  · rw [mine, left]
    split
    · exact .inl ‹_›
    · refine .inr ?_
      have one := last.resolve_left (by omega)
      rw [renew_rr, if_pos one]

/-- A tick after which the job goes on. -/
theorem nextTick (same : Same w v) (running : (m.entries i).phase = .running) (more : 2 ≤ (m.entries i).left) (slice : (m.entries i).slice = 2) :
    v.tick .rr m i = v.spend .rr m i ∧ ((v.spend .rr m i).entries i).phase = .running ∧
      ((v.spend .rr m i).entries i).slice = 1 := by
  have mine := spend_mine same running
  obtain ⟨-, phase', -⟩ := renew_rr_other (m.entries i)
  have on : v.tick .rr m i = v.spend .rr m i := by
    rw [Mlfq.tick_eq, if_neg]
    rintro (none | voluntary | expired | preempts)
    · simp only [Mlfq.Entry.charge] at none
      omega
    · exact never_voluntary same i _ voluntary
    · rcases expired with demotes | out
      · cases demotes.2.1
      · simp only [Mlfq.Entry.charge] at out
        omega
    · cases preempts.1
  rw [mine, if_neg (by omega)]
  refine ⟨on, phase'.trans running, ?_⟩
  rw [renew_rr, if_neg (by omega)]
  simp only [Mlfq.Entry.charge]
  omega

theorem poised_rr (settled : Mlfq.Settled m) (busy : m.current = none → m.ready = []) (period : Nat) :
    m.poised .rr period = m := by
  unfold Mlfq.State.poised
  rw [Mlfq.scan_settled settled, boost_rr]
  rcases Mlfq.dispatch_cases m .rr with ⟨i, free, chosen, -⟩ | ⟨-, same⟩
  · have member := Mlfq.choose_mem chosen
    rw [busy free] at member
    cases member
  · exact same

/-- A tick with its arrivals on both sides. -/
theorem Alike.spend (alike : Alike (some i) s m) (same : Same w v) (kept : Mlfq.Kept v m)
    (settled : Mlfq.Settled m) (running : (m.entries i).phase = .running)
    (sorted : s.pending.Pairwise fun i j => w.joins i < w.joins j) :
    Alike (some i) (w.arrive (s.work .rr 1 i s.ready)) (v.spend .rr m i) := by
  have charged := alike.charged same kept running
  have kept' : Mlfq.Kept v (v.charged .rr m i) := kept.charged settled alike.current running
  exact charged.scan same kept' sorted

theorem Alike.going (alike : Alike none s m) (kept : Mlfq.Kept v m) (going : s.Going) : m.Going := by
  have undone (i : Fin n) (other : (m.entries i).phase ≠ .done) : m.Going :=
    ⟨i, (kept.fits i).unended.mpr other⟩
  rcases going with coming | waiting
  · obtain ⟨i, rest, pending⟩ := List.exists_cons_of_ne_nil coming
    have new := (alike.coming i).mpr (pending ▸ List.mem_cons_self)
    exact undone i (by simp [new])
  · obtain ⟨i, rest, ready⟩ := List.exists_cons_of_ne_nil waiting
    have mine := (kept.ready i).mp (by rw [alike.ready, ready]; exact List.mem_cons_self)
    exact undone i (by simp [mine])

/-- One slice of quantum 2 against the one or two turns that have its ticks. -/
theorem Alike.turn (alike : Alike none a m.scan) (same : Same w v) (head : Mlfq.AtHead v m) (going : m.Going)
    (sound : Scheduling.Sound w none a) (ready : a.ready = i :: rest) (period : Nat) :
    ∃ m', Turns Mlfq.State.Going (v.pass .rr period) m m' ∧ Mlfq.AtHead v m' ∧
      Alike none ((w.arrive (a.work .rr 2 i rest)).requeue i) m' ∧ m'.switches = m.switches + 1 := by
  obtain ⟨-, left, -⟩ := sound.waiting i (.inl (ready ▸ List.mem_cons_self))
  obtain ⟨began, switches, slice⟩ := alike.dispatch head.toKept.scan.1 ready
  obtain ⟨d, poised, head', settled, ⟨free, -, -⟩ | ⟨k, current, running, next⟩⟩ := head.cases .rr period
  · unfold Mlfq.State.poised at poised
    rw [boost_rr] at poised
    rw [poised] at free
    exact absurd (free.symm.trans began.current) nofun
  · unfold Mlfq.State.poised at poised
    rw [boost_rr] at poised
    rw [← poised] at began switches slice
    cases current.symm.trans began.current
    have work : (d.entries i).left = a.remaining i := began.left i
    have first : Alike (some i) (w.arrive (a.work .rr 1 i rest)) (v.spend .rr d i) := by
      rw [← took_work a i rest 1]
      exact began.spend same head'.toKept settled running sound.sorted
    have left₁ : (w.arrive (a.work .rr 1 i rest)).remaining i = a.remaining i - 1 := by
      rw [(Scheduling.arrive_arrived w _).remaining, (Scheduling.work_mine ..).1]
      simp only [Scheduling.State.duration]
      omega
    by_cases one : a.remaining i = 1
    · have short : a.work .rr 2 i rest = a.work .rr 1 i rest := by
        have same : a.duration .rr 2 i = a.duration .rr 1 i := by simp [Scheduling.State.duration, one]
        unfold Scheduling.State.work
        rw [same]
      rw [short]
      refine ⟨_, .once going next, head.next next, ?_, ?_⟩
      · exact first.lastTick same running (.inl (work.trans one)) (by rw [left₁, work])
      · rw [Mlfq.tick_switches, switches]
        simp
    · have two : 2 ≤ a.remaining i := by omega
      obtain ⟨on, running₁, slice₁⟩ := nextTick same running (work ▸ two) slice
      have kept₁ : Mlfq.Kept v (v.charged .rr d i) := head'.toKept.charged settled current running
      have settled₁ : Mlfq.Settled (v.spend .rr d i) := kept₁.scan.2
      rw [on] at next
      have head₁ := head.next next
      have going₁ : (v.spend .rr d i).Going := ⟨i, (head₁.fits i).unended.mpr (by simp [running₁])⟩
      have switches₁ : (v.spend .rr d i).switches = d.switches := on ▸ Mlfq.tick_switches v .rr d i
      have away : i ∉ a.pending := fun coming => (sound.coming i coming).1 (ready ▸ List.mem_cons_self)
      generalize v.spend .rr d i = m₁ at *
      obtain ⟨d₁, poised₁, -, -, ⟨free, -, -⟩ | ⟨k, current₁, -, next₁⟩⟩ := head₁.cases .rr period
      · rw [poised_rr settled₁ (fun free => absurd (free.symm.trans first.current) nofun) period] at poised₁
        rw [poised₁] at free
        exact absurd (free.symm.trans first.current) nofun
      · rw [poised_rr settled₁ (fun free => absurd (free.symm.trans first.current) nofun) period] at poised₁
        subst poised₁
        cases current₁.symm.trans first.current
        have sorted₁ : (w.arrive (a.work .rr 1 i rest)).pending.Pairwise fun i j => w.joins i < w.joins j := by
          rw [(Scheduling.arrive_arrived w _).pending]
          exact sound.sorted.sublist (List.dropWhile_sublist _)
        have second := (first.spend same head₁.toKept settled₁ running₁ sorted₁).merge two away
        refine ⟨_, (Turns.once going next).append (.once going₁ next₁), head₁.next next₁, ?_, ?_⟩
        · refine second.lastTick same running₁ (.inr slice₁) ?_
          rw [first.left, left₁, (Scheduling.arrive_arrived w _).remaining, (Scheduling.work_mine ..).1]
          simp only [Scheduling.State.duration]
          omega
        · rw [Mlfq.tick_switches, switches₁, switches]
          simp

/-! ### The whole run -/

/-- Time moves to the same next arrival. -/
theorem Alike.idle (alike : Alike none a b) (same : Same w v) (kept : Mlfq.Kept v b)
    (sorted : a.pending.Pairwise fun i j => w.joins i < w.joins j) (nobody : a.ready = []) :
    (a.pending = [] → Alike none a b.idle) ∧ (a.pending ≠ [] → Alike none (w.jump a) b.idle) := by
  have sleeps (i : Fin n) : (b.entries i).Sleeps ↔ i ∈ a.pending :=
    (asleep same kept i).trans (alike.coming i)
  rcases Mlfq.idle_cases b with ⟨k, asleep, first, moved⟩ | ⟨none, moved⟩
  · have among := (sleeps k).mp asleep
    refine ⟨fun empty => ?_, fun _ => ?_⟩
    · rw [empty] at among
      cases among
    · obtain ⟨i, rest, pending⟩ := List.exists_cons_of_ne_nil (List.ne_nil_of_mem among)
      have mine : i ∈ a.pending := pending ▸ List.mem_cons_self
      have fresh := alike.fresh same kept mine
      have behind : w.arrival i ≤ w.arrival k := by
        rw [pending] at among sorted
        rcases List.mem_cons.mp among with rfl | later
        · exact le_rfl
        · exact Scheduling.joins_arrival ((List.pairwise_cons.mp sorted).1 k later)
      have early := first i ((sleeps i).mpr mine)
      rw [(alike.fresh same kept among).1, fresh.1] at early
      have jumped : w.jump a = { a with now := max a.now (w.arrival i) } := by
        unfold Scheduling.Workload.jump
        rw [nobody, pending]
      have meet : w.arrival k = max a.now (w.arrival i) := by
        rw [le_antisymm early behind, max_eq_right fresh.2.2]
      rw [jumped, moved, (alike.fresh same kept among).1]
      exact ⟨meet, alike.ready, alike.current, alike.coming, alike.left, alike.first,
        alike.done, alike.level, alike.slice, alike.trace⟩
  · rw [moved]
    refine ⟨fun _ => alike, fun some => ?_⟩
    obtain ⟨i, rest, pending⟩ := List.exists_cons_of_ne_nil some
    exact absurd ((sleeps i).mpr (pending ▸ List.mem_cons_self)) (none i)

/-- The heads of both loops meet, or the MLFQ simulator has already moved its time
to the next arrival. -/
structure Meets (w : Scheduling.Workload n) (v : Mlfq.Workload n) (s : Scheduling.State n) (m : Mlfq.State n) :
    Prop where
  head : Scheduling.AtHead w s
  head' : Mlfq.AtHead v m
  switches : m.switches = s.trace.length
  alike : Alike none s m ∨ s.Going ∧ Alike none (w.jump s) m

/-- A turn of the MLFQ simulator in which nobody is ready. -/
theorem idle_pass (head : Mlfq.AtHead v m) (free : m.current = none) (nobody : m.scan.ready = []) (period : Nat) :
    v.pass .rr period m = .ok m.scan.idle := by
  have settled := head.toKept.scan.2
  have poised : m.poised .rr period = m.scan := by
    have again := poised_rr settled (fun _ => nobody) period
    unfold Mlfq.State.poised at again ⊢
    rwa [Mlfq.scan_settled settled] at again
  obtain ⟨d, same, -, -, ⟨-, -, next⟩ | ⟨i, current, -, -⟩⟩ := head.cases .rr period
  · rw [next, same, poised]
  · rw [same, poised, Mlfq.scan_current, free] at current
    cases current

/-- Before a pass of the scheduling simulator, the other one moves its time as well. -/
theorem Meets.jump (meets : Meets w v s m) (same : Same w v) (going : s.Going) (period : Nat) :
    ∃ m', Turns Mlfq.State.Going (v.pass .rr period) m m' ∧ Mlfq.AtHead v m' ∧
      m'.switches = m.switches ∧ Alike none (w.jump s) m' := by
  obtain ⟨head, head', -, alike | ⟨-, alike⟩⟩ := meets
  · rcases Scheduling.jump_cases (w := w) going with ⟨-, stays⟩ | ⟨i, rest, nobody, pending, jumped⟩
    · exact ⟨m, .done, head', rfl, by rw [stays]; exact alike⟩
    · have mine : i ∈ s.pending := pending ▸ List.mem_cons_self
      by_cases due : w.arrival i ≤ s.now
      · have stays : w.jump s = s := by
          rw [jumped, max_eq_left due]
        exact ⟨m, .done, head', rfl, by rw [stays]; exact alike⟩
      · have settled : Mlfq.Settled m := by
          intro k sleeps
          have coming := (alike.coming k).mp ((asleep same head'.toKept k).mp sleeps)
          have behind : w.arrival i ≤ w.arrival k := by
            have sorted := head.sound.sorted
            rw [pending] at coming sorted
            rcases List.mem_cons.mp coming with rfl | later
            · exact le_rfl
            · exact Scheduling.joins_arrival ((List.pairwise_cons.mp sorted).1 k later)
          rw [(alike.fresh same head'.toKept coming).1, alike.now]
          omega
        have next := idle_pass head' alike.current (by rw [Mlfq.scan_settled settled, alike.ready, nobody]) period
        rw [Mlfq.scan_settled settled] at next
        refine ⟨_, .once (alike.going head'.toKept going) next, head'.next next, Mlfq.idle_switches m, ?_⟩
        exact (alike.idle same head'.toKept head.sound.sorted nobody).2 (by rw [pending]; exact nofun)
  · exact ⟨m, .done, head', rfl, alike⟩

theorem Meets.pass (meets : Meets w v s m) (same : Same w v) (going : s.Going) (period : Nat) :
    ∃ m', Turns Mlfq.State.Going (v.pass .rr period) m m' ∧ Meets w v (w.pass .rr 2 s) m' := by
  obtain ⟨m₁, turns, head₁, switches, alike⟩ := meets.jump same going period
  have head := meets.head
  have count := meets.switches
  obtain ⟨jumped, -, -⟩ := head.jump going
  have going₁ : m₁.Going := by
    refine alike.going head₁.toKept ?_
    obtain ⟨-, ready, pending, -⟩ := Scheduling.jump_other w s
    unfold Scheduling.State.Going
    rwa [ready, pending]
  have arrived := alike.scan same head₁.toKept jumped.sorted
  have traced : (w.arrive (w.jump s)).trace = s.trace :=
    (Scheduling.arrive_arrived w _).trace.trans (Scheduling.jump_other w s).1
  have after : Scheduling.AtHead w (w.pass .rr 2 s) := head.pass going
  obtain ⟨a, rfl, sound, -, ⟨nobody, next⟩ | ⟨i, rest, chosen, next⟩⟩ := head.cases going .rr 2
  · have moved := idle_pass head₁ alike.current (by rw [arrived.ready, nobody]) period
    rw [next] at after ⊢
    refine ⟨_, turns.append (.once going₁ moved), after, head₁.next moved, ?_, ?_⟩
    · rw [Mlfq.idle_switches, Mlfq.scan_switches, switches, count, traced]
    · obtain ⟨stopped, more⟩ := arrived.idle same head₁.toKept.scan.1 sound.sorted nobody
      by_cases empty : (w.arrive (w.jump s)).pending = []
      · exact .inl (stopped empty)
      · exact .inr ⟨.inl empty, more empty⟩
  · have ready := (Scheduling.select_some chosen).2.2.1 nofun
    obtain ⟨m₂, turns₂, head₂, alike₂, switches₂⟩ := arrived.turn same head₁ going₁ sound ready period
    rw [next] at after ⊢
    refine ⟨m₂, turns.append turns₂, after, head₂, ?_, .inl alike₂⟩
    obtain ⟨-, -, -, -, -, trace⟩ := Scheduling.requeue_other (w.arrive ((w.arrive (w.jump s)).work .rr 2 i rest)) i
    rw [switches₂, switches, count, trace, (Scheduling.arrive_arrived w _).trace, ← traced]
    simp [Scheduling.State.work]

theorem Meets.stopped (meets : Meets w v s m) (same : Same w v) (stopped : ¬ s.Going) :
    ¬ m.Going ∧ Alike none s m := by
  obtain ⟨-, head', -, alike | ⟨going, -⟩⟩ := meets
  · refine ⟨?_, alike⟩
    rintro ⟨i, undone⟩
    have unfinished := (head'.fits i).unended.mp undone
    simp only [Scheduling.State.Going, not_or, not_not] at stopped
    cases phase : (m.entries i).phase with
    | new =>
      have coming := (alike.coming i).mp phase
      rw [stopped.1] at coming
      cases coming
    | ready =>
      have waiting := (head'.ready i).mpr phase
      rw [alike.ready, stopped.2] at waiting
      cases waiting
    | running => exact absurd (alike.current.symm.trans (head'.running i phase)) (Option.some_ne_none i).symm
    | blocked =>
      have new := (asleep same head'.toKept i).mp (.inr phase)
      rw [phase] at new
      cases new
    | done => exact unfinished phase
  · exact absurd going stopped

/-- Both loops end with the same trace and the same times. -/
theorem ends_alike (same : Same w v) (period : Nat) : ∃ t t', w.Leads .rr 2 w.start t ∧
    v.Leads .rr period (v.start period) t' ∧ Alike none t t' ∧ t'.switches = t.trace.length := by
  obtain ⟨t, leads, -, stopped⟩ := Scheduling.schedule_ends w .rr Nat.two_pos
  have start : Meets w v w.start (v.start period) :=
    ⟨Scheduling.start_head w, Mlfq.start_head v period, rfl, .inl (start_alike same period)⟩
  obtain ⟨t', leads', meets⟩ := leads.simulated
    (fun s m s' meets going next => by
      cases next
      exact Meets.pass meets same going period)
    (fun s m meets stopped => (Meets.stopped meets same stopped).1) start
  exact ⟨t, t', leads, leads', (meets.stopped same stopped).2, meets.switches⟩

/-- The same job without voluntary scheduling points. -/
def plain (job : Scheduling.Job) : Mlfq.Job := ⟨job.name, job.arrival, job.service, 0, 0⟩

theorem unitTicks_label (w : Scheduling.Workload n) (trace : List (Scheduling.Slice (Fin n))) :
    unitTicks (trace.map w.label) = (unitTicks trace).map fun e => (e.1, w.name e.2) := by
  unfold unitTicks
  rw [List.flatMap_map, List.map_flatMap]
  simp only [Scheduling.Slice.ticks, List.map_map]
  rfl

/-- For every list of uniquely named jobs with no negative time, without bursts
and waits, the RR policy of the MLFQ simulator and the scheduling simulator
with quantum 2 give the same ticks, the same metrics and the same number of
turns. -/
theorem same_round_robin (jobs : Fin n → Scheduling.Job) (period : Nat)
    (named : Function.Injective fun i => (jobs i).name)
    (proper : ∀ i, 0 ≤ (jobs i).arrival ∧ 0 ≤ (jobs i).service) (positive : 0 < period) :
    ∃ r r', Scheduling.Simulates jobs .rr 2 r ∧ Mlfq.Simulates (fun i => plain (jobs i)) .rr period r' ∧
      r'.trace = (unitTicks r.trace).map (fun e => ⟨e.1, e.2, 0⟩) ∧
      (∀ i, (r'.jobs i).response = (r.result i).response ∧ (r'.jobs i).turnaround = (r.result i).turnaround) ∧
      r'.switches = r.trace.length := by
  obtain ⟨w, accepted, agree⟩ := Scheduling.validate_accepts jobs named proper
  have accepted' : Mlfq.Accepted fun i => plain (jobs i) :=
    ⟨named, fun i => ⟨(proper i).1, (proper i).2, le_rfl, le_rfl, fun some => absurd rfl some⟩⟩
  obtain ⟨v, valid, holds⟩ := Mlfq.validate_accepts accepted'
  have same : Same w v := by
    refine ⟨?_, ?_, ?_, fun i => ?_, fun i => ?_⟩
    · funext i
      exact (holds.name i).trans (agree i).1.symm
    · funext i
      exact Int.ofNat_inj.mp ((holds.arrival i).trans (agree i).2.1.symm)
    · funext i
      exact Int.ofNat_inj.mp ((holds.service i).trans (agree i).2.2.symm)
    · exact Int.natCast_eq_zero.mp (holds.burst i)
    · exact Int.natCast_eq_zero.mp (holds.wait i)
  obtain ⟨t, t', leads, leads', alike, switches⟩ := ends_alike same period
  obtain ⟨-, returns⟩ := Scheduling.leads_returns Nat.two_pos leads
  obtain ⟨-, returns'⟩ := Mlfq.leads_returns leads'
  refine ⟨_, _, Scheduling.Returns.simulate accepted Nat.two_pos returns,
    Mlfq.Returns.simulate valid positive returns', ?_, fun i => ?_, ?_⟩
  · rw [unitTicks_label]
    simp only [Mlfq.State.outcome, alike.trace, List.map_map]
    apply List.map_congr_left
    intro e _
    simp [Mlfq.Workload.label, same.name]
  · simp only [Mlfq.State.outcome, Mlfq.State.metrics, Scheduling.State.metrics, alike.first, alike.done,
      same.arrival, and_self]
  · simp [Mlfq.State.outcome, switches]

theorem same_round_robin_course : ∃ r r', Scheduling.Simulates Scheduling.course .rr 2 r ∧
    Mlfq.Simulates (fun i => plain (Scheduling.course i)) .rr 40 r' ∧
    r'.trace = (unitTicks r.trace).map (fun e => ⟨e.1, e.2, 0⟩) ∧
    (∀ i, (r'.jobs i).response = (r.result i).response ∧ (r'.jobs i).turnaround = (r.result i).turnaround) ∧
    r'.switches = r.trace.length :=
  same_round_robin Scheduling.course 40 Scheduling.course_accepted.1 Scheduling.course_accepted.2 (by decide)

end Neonos.SameRoundRobin
