import Neonos.MlfqHistory

/-! Who runs at a tick of the MLFQ simulator: never a job while another one of
higher priority could, and among equals the one that has waited longest. -/
namespace Neonos.Mlfq
open StableChoice WhileLoop Runs

variable {w : Workload n} {policy : Policy} {period : Nat} {s t : State n} {heads : List (State n)} {i j : Fin n}

/-- Arrived, not blocked and not finished. -/
def Workload.Runnable (w : Workload n) (s : State n) (j : Fin n) : Prop :=
  w.arrival j ≤ s.now ∧ (s.entries j).phase ≠ .blocked ∧ (s.entries j).done = none

/-- What was appended to `ready` between two states. -/
def State.grown (s t : State n) : List (Fin n) := t.ready.drop s.ready.length

/-- The jobs a pass appends to `ready`, in order: by its first scan and by its tick. -/
def Workload.joins (w : Workload n) (policy : Policy) (period : Nat) (s : State n) : List (Fin n) :=
  s.grown s.scan ++ (s.poised policy period).current.toList.flatMap fun i =>
    (s.poised policy period).grown (w.tick policy (s.poised policy period) i)

/-! ### Who could run -/

theorem AtHead.waiting (head : AtHead w s) (settled : Settled s) (current : s.current = some i)
    (other : j ≠ i) (runnable : w.Runnable s j) : j ∈ s.ready := by
  obtain ⟨arrived, awake, unfinished⟩ := runnable
  rw [head.ready]
  cases phase : (s.entries j).phase with
  | new =>
    have later := settled j (.inl phase)
    rw [((head.fits j).new phase).2] at later
    exact absurd arrived (not_le.mpr later)
  | ready => rfl
  | running =>
    have mine := head.running j phase
    exact absurd (Option.some.inj (mine.symm.trans current)) other
  | blocked => exact absurd phase awake
  | done => exact absurd phase ((head.fits j).unended.mp unfinished)

/-- Nobody in the ready list is above the job a pass gives the processor. -/
theorem Undisturbed.top (undisturbed : Undisturbed .mlfq s)
    (current : (s.poised .mlfq period).current = some i) :
    ∀ k ∈ (s.poised .mlfq period).ready,
      ((s.poised .mlfq period).entries i).level ≤ ((s.poised .mlfq period).entries k).level := by
  intro k member
  cases held : s.current with
  | some j =>
    have same : s.poised .mlfq period = s := undisturbed.poised held
    rw [same] at current member ⊢
    obtain rfl : i = j := Option.some.inj (current.symm.trans held)
    exact not_lt.mp (((undisturbed i held).2 rfl).2 k member)
  | none =>
    have free : (s.scan.boost .mlfq period).current = none := by
      rw [(boost_other s.scan .mlfq period).2.2.2.1, scan_current]
      exact held
    unfold State.poised at current member ⊢
    rcases dispatch_cases (s.scan.boost .mlfq period) .mlfq with ⟨j, -, chosen, given⟩ | ⟨-, given⟩
    · rw [given] at current member ⊢
      obtain rfl : j = i := Option.some.inj current
      have taken := least_takes (chosen : least _ _ = some j)
      have least := taken.least (taken.mem_iff.mpr (.inr member))
      by_cases own : k = j
      · rw [own]
      · simpa [Function.update_of_ne own, Entry.taken] using least
    · rw [given] at current
      exact absurd (free.symm.trans current) (by simp)

/-! ### Who has waited longest -/

theorem grown_append (shape : t.ready = s.ready ++ news) : s.grown t = news := by
  rw [State.grown, shape, List.drop_left]

theorem grown_scan (s : State n) : s.scan.ready = s.ready ++ s.grown s.scan := by
  rw [grown_append (scan_ready s)]
  exact scan_ready s

theorem grown_tick (w : Workload n) (policy : Policy) (s : State n) (i : Fin n) :
    (w.tick policy s i).ready = s.ready ++ s.grown (w.tick policy s i) := by
  have scanned : (w.spend policy s i).ready = s.ready ++ (w.charged policy s i).grown (w.spend policy s i) :=
    grown_scan (w.charged policy s i)
  have shape : ∃ news, (w.tick policy s i).ready = s.ready ++ news := by
    rcases tick_cases w policy s i with stopped | ⟨on, -⟩
    · rw [stopped]
      rcases giveUp_cases (w.spend policy s i) i with ⟨-, same⟩ | ⟨-, same⟩
      · rw [same, scanned]
        exact ⟨_, List.append_assoc ..⟩
      · rw [same]
        exact ⟨_, scanned⟩
    · rw [on]
      exact ⟨_, scanned⟩
  obtain ⟨news, shape⟩ := shape
  rw [grown_append shape]
  exact shape

theorem boosted_inOrder (head : AtHead w s) (ordered : InOrder arrivals s.ready) (policy : Policy) (period : Nat) :
    InOrder (arrivals ++ s.grown s.scan) (s.scan.boost policy period).ready := by
  rw [(boost_other s.scan policy period).1, grown_scan s]
  apply ordered.joinAll
  rw [← grown_scan s]
  exact head.toKept.scan.1.distinct

theorem poised_inOrder (head : AtHead w s) (ordered : InOrder arrivals s.ready) (policy : Policy) (period : Nat) :
    InOrder (arrivals ++ s.grown s.scan) (s.poised policy period).ready := by
  have boosted := boosted_inOrder head ordered policy period
  unfold State.poised
  rcases dispatch_cases (s.scan.boost policy period) policy with ⟨j, -, -, given⟩ | ⟨-, given⟩
  · rw [given]
    exact boosted.sublist (List.erase_sublist ..)
  · rw [given]
    exact boosted

theorem AtHead.next_inOrder (head : AtHead w s) (ordered : InOrder arrivals s.ready)
    (next : w.pass policy period s = .ok t) : InOrder (arrivals ++ w.joins policy period s) t.ready := by
  have poised := poised_inOrder head ordered policy period
  obtain ⟨a, rfl, head', settled, ⟨free, -, moved⟩ | ⟨i, current, running, ticks⟩⟩ := head.cases policy period
  · cases moved.symm.trans next
    have still : (s.poised policy period).idle.ready = (s.poised policy period).ready := by
      rcases idle_cases (s.poised policy period) with ⟨_, -, -, same⟩ | ⟨-, same⟩ <;> rw [same]
    rw [still, Workload.joins, free]
    simpa using poised
  · cases ticks.symm.trans next
    have distinct := (head'.toKept.tick settled policy current running).1.distinct
    rw [grown_tick] at distinct ⊢
    have joined : w.joins policy period s = s.grown s.scan ++
        (s.poised policy period).grown (w.tick policy (s.poised policy period) i) := by
      simp [Workload.joins, current]
    rw [joined, ← List.append_assoc]
    exact poised.joinAll distinct

theorem passes_inOrder (run : w.Passes policy period heads t) :
    InOrder (heads.flatMap (w.joins policy period)) t.ready := by
  induction run with
  | nil => exact List.Pairwise.nil
  | @snoc heads m head t run last ih =>
    obtain ⟨rfl, -, next⟩ := last
    have longer := (passes_head run).next_inOrder ih next
    simpa using longer

/-- The ready list from which a pass dispatches, as the history ranks it. -/
structure Chosen (s : State n) (joined : List (Fin n)) (i : Fin n) : Prop where
  waiting : i ∈ s.ready
  least : ∀ k ∈ s.ready, (s.entries i).level ≤ (s.entries k).level
  earliest : ∀ k ∈ s.ready, k ≠ i → (s.entries k).level = (s.entries i).level →
    lastJoin joined i < lastJoin joined k

theorem chosen (head : AtHead w s) (ordered : InOrder arrivals s.ready) (free : s.current = none)
    (current : (s.poised .mlfq period).current = some i) :
    Chosen (s.scan.boost .mlfq period) (arrivals ++ s.grown s.scan) i := by
  have boosted := boosted_inOrder head ordered .mlfq period
  have idle : (s.scan.boost .mlfq period).current = none := by
    rw [(boost_other s.scan .mlfq period).2.2.2.1, scan_current]
    exact free
  unfold State.poised at current
  rcases dispatch_cases (s.scan.boost .mlfq period) .mlfq with ⟨j, -, picked, given⟩ | ⟨-, given⟩
  · rw [given] at current
    obtain rfl : j = i := Option.some.inj current
    have taken := least_takes (picked : least _ _ = some j)
    refine ⟨taken.mem, fun k => taken.least, fun k member other tie => ?_⟩
    exact taken.earliest boosted ((taken.mem_iff.mp member).resolve_left other) tie.le
  · rw [given] at current
    exact absurd (idle.symm.trans current) (by simp)

/-- **Strict priority, and order of arrival among equals.** In the complete run
of every workload `simulate` accepts, at every entry of the trace no other
runnable job has a lower level than the one that runs; and every dispatch takes,
of the ready jobs of the least level, the one whose present stay in `ready`
began first. -/
theorem priority_then_arrival (jobs : Fin n → Job) (period : Nat) (accepted : Accepted jobs)
    (positive : 0 < period) :
    ∃ w heads t, Holds w jobs ∧ w.Schedules .mlfq period heads t ∧
      Simulates jobs .mlfq period (t.outcome w) ∧
      (∀ x ∈ t.trace, ∃ s ∈ heads, (s.poised .mlfq period).current = some x.job ∧
        (s.poised .mlfq period).now = x.time ∧ ((s.poised .mlfq period).entries x.job).level = x.level ∧
        ∀ j, j ≠ x.job → w.Runnable (s.poised .mlfq period) j →
          x.level ≤ ((s.poised .mlfq period).entries j).level) ∧
      ∀ before s after i, heads = before ++ s :: after → s.current = none →
        (s.poised .mlfq period).current = some i →
        Chosen (s.scan.boost .mlfq period)
          (before.flatMap (w.joins .mlfq period) ++ s.grown s.scan) i := by
  obtain ⟨w, valid, holds⟩ := validate_accepts accepted
  obtain ⟨heads, t, complete, returns⟩ := schedules w .mlfq period
  refine ⟨w, heads, t, holds, complete, Returns.simulate valid positive returns, fun x member => ?_, ?_⟩
  · rw [passes_trace complete.1] at member
    obtain ⟨s, among, tick⟩ := List.mem_flatMap.mp member
    obtain ⟨before, after, rfl⟩ := List.append_of_mem among
    obtain ⟨earlier, -⟩ := passes_taken complete.1
    obtain ⟨i, current, rfl⟩ := List.mem_map.mp tick
    have current : (s.poised .mlfq period).current = some i := by simpa using current
    obtain ⟨head, settled, -⟩ := (passes_head earlier).poised .mlfq period
    refine ⟨s, among, current, rfl, rfl, fun j other runnable => ?_⟩
    exact (passes_undisturbed earlier).top current j (head.waiting settled current other runnable)
  · rintro before s after i rfl free current
    obtain ⟨earlier, -⟩ := passes_taken complete.1
    exact chosen (passes_head earlier) (passes_inOrder earlier) free current

theorem priority_then_arrival_course : ∃ w heads t, Holds w course ∧ w.Schedules .mlfq 40 heads t ∧
    ∀ x ∈ t.trace, ∃ s ∈ heads, (s.poised .mlfq 40).current = some x.job ∧
      ∀ j, j ≠ x.job → w.Runnable (s.poised .mlfq 40) j →
        x.level ≤ ((s.poised .mlfq 40).entries j).level := by
  obtain ⟨w, heads, t, holds, complete, -, top, -⟩ := priority_then_arrival course 40 course_accepted
    (by decide)
  refine ⟨w, heads, t, holds, complete, fun x member => ?_⟩
  obtain ⟨s, among, current, -, -, least⟩ := top x member
  exact ⟨s, among, current, least⟩

end Neonos.Mlfq
