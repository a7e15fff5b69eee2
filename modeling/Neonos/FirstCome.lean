import Neonos.NonPreemptive

/-! FCFS is the single-server recursion over the jobs in the order they join,
and round robin with a quantum nobody exceeds is FCFS. -/
namespace Neonos.Scheduling
open StableChoice WhileLoop SortedLine

variable {w : Workload n} {policy : Policy} {quantum : Nat} {s t : State n} {i j : Fin n}

/-- The jobs that have work to do, in the order they join. -/
def Workload.proper (w : Workload n) (line : List (Fin n)) : List (Fin n) :=
  line.filter fun i => w.service i ≠ 0

/-- What has run, what is ready and what is to come, one behind the other, is
everybody in order. -/
structure Queued (w : Workload n) (s : State n) : Prop extends Serial w s where
  order : s.trace.map Slice.job ++ (s.ready ++ w.proper s.pending) = w.proper w.start.pending

theorem start_queued (w : Workload n) : Queued w w.start := ⟨start_serial w, rfl⟩

/-- `arrive` moves jobs from one list to the other. -/
theorem arrive_queue (w : Workload n) (s : State n) :
    (w.arrive s).ready ++ w.proper (w.arrive s).pending = s.ready ++ w.proper s.pending := by
  obtain ⟨-, -, -, pending, ready, -, -⟩ := arrive_arrived w s
  have whole := List.takeWhile_append_dropWhile (p := fun i => decide (w.arrival i ≤ s.now)) (l := s.pending)
  rw [ready, pending, List.append_assoc]
  congr 1
  conv_rhs => rw [← whole, Workload.proper, List.filter_append]
  rfl

theorem Queued.pass (queued : Queued w s) (kept : Kept w s) (going : s.Going) :
    Queued w (w.pass .fcfs quantum s) := by
  refine ⟨queued.toSerial.pass kept going nofun, ?_⟩
  obtain ⟨trace₀, ready₀, pending₀, -⟩ := jump_other w s
  obtain ⟨-, -, trace, -⟩ := arrive_arrived w (w.jump s)
  have queue := arrive_queue w (w.jump s)
  rw [ready₀, pending₀] at queue
  rw [trace₀] at trace
  obtain ⟨a, arrived, sound, -, ⟨nobody, same⟩ | ⟨i, rest, chosen, same⟩⟩ :=
    kept.head.cases going .fcfs quantum
  · rw [← arrived] at trace queue
    rw [same, trace, queue]
    exact queued.order
  · have line : a.ready = i :: rest := (select_some chosen).2.2.1 nofun
    obtain ⟨-, -, trace', -⟩ := arrive_arrived w (a.work .fcfs quantum i rest)
    have queue' := arrive_queue w (a.work .fcfs quantum i rest)
    have finished : (w.arrive (a.work .fcfs quantum i rest)).remaining i = 0 := by
      rw [(arrive_arrived w _).remaining, (work_mine a .fcfs quantum i rest).1]
      exact Nat.sub_self _
    have unchanged : (w.arrive (a.work .fcfs quantum i rest)).requeue i =
        w.arrive (a.work .fcfs quantum i rest) := if_pos finished
    have jobs : (a.work .fcfs quantum i rest).trace.map Slice.job = s.trace.map Slice.job ++ [i] := by
      rw [← trace, ← arrived]
      exact List.map_append
    rw [← arrived] at queue
    rw [same, unchanged, trace', queue', jobs, List.append_assoc]
    change s.trace.map Slice.job ++ ((i :: rest) ++ w.proper a.pending) = _
    rw [← line, queue]
    exact queued.order

theorem leads_queued (positive : 0 < quantum) (leads : w.Leads .fcfs quantum w.start t) :
    Queued w t := by
  have start : Kept w w.start ∧ Queued w w.start := ⟨start_kept w, start_queued w⟩
  obtain ⟨t', same, ⟨-, queued⟩, -⟩ := leads.invariant
    (fun s (kept : Kept w s ∧ Queued w s) going =>
      ⟨_, rfl, kept.1.pass going positive, kept.2.pass kept.1 going⟩) start
  rw [Except.ok.inj same]
  exact queued

/-! ### Large quanta -/

/-- A pass of round robin in which nobody can use up the quantum. -/
theorem pass_large (kept : Kept w s) (going : s.Going) (large : ∀ i, w.service i ≤ quantum)
    (quantum' : Nat) : w.pass .rr quantum s = w.pass .fcfs quantum' s := by
  have recorded := (kept.head.jump_recorded kept.recorded going).arrive
  unfold Workload.pass
  generalize w.arrive (w.jump s) = a at *
  have duration (i : Fin n) : a.duration .rr quantum i = a.duration .fcfs quantum' i := by
    have account := recorded.served i
    have bound := large i
    apply min_eq_left
    omega
  have work (i : Fin n) (rest : List (Fin n)) :
      a.work .rr quantum i rest = a.work .fcfs quantum' i rest := by
    unfold State.work
    rw [duration i]
  have select : w.select .rr a = w.select .fcfs a := rfl
  dsimp only
  rw [select]
  cases w.select .fcfs a with
  | none => rfl
  | some found => exact congrArg (fun b => (w.arrive b).requeue found.1) (work found.1 found.2)

theorem leads_large (positive : 0 < quantum)
    (large : ∀ i, w.service i ≤ quantum) (leads : w.Leads .fcfs quantum' w.start t) :
    w.Leads .rr quantum w.start t := by
  obtain ⟨t', leads', -⟩ := schedule_ends w .rr positive
  have together := leads'.alongside (fun s s' => s = s' ∧ Kept w s) leads
    (fun s s' same => by rw [same.1]) ?_ ⟨rfl, start_kept w⟩
  · rw [← together.1]
    exact leads'
  · rintro s s' m m' ⟨rfl, kept⟩ going next next'
    cases next
    cases next'
    exact ⟨pass_large kept going large quantum', kept.pass going positive⟩

/-- FCFS runs the jobs that have work to do once each, in the order they join,
each over the interval of the single-server recursion; and round robin with a
quantum as large as every service returns the very same. -/
theorem fcfs_recursion (w : Workload n) (quantum : Nat) (positive : 0 < quantum) :
    ∃ r order, w.Returns .fcfs quantum r ∧
      order.Pairwise (fun i j => toLex (w.arrival i, i) < toLex (w.arrival j, j)) ∧
      (∀ i, i ∈ order ↔ 0 < w.service i) ∧ r.trace = (w.oneServer 0 order).map w.label ∧
      ∀ large, 0 < large → (∀ i, w.service i ≤ large) → w.Returns .rr large r := by
  obtain ⟨t, leads, -, stopped⟩ := schedule_ends w .fcfs positive
  obtain ⟨ended, returns⟩ := leads_returns positive leads
  have queued := leads_queued positive leads
  have order := queued.order
  obtain ⟨none, nobody⟩ : t.pending = [] ∧ t.ready = [] := by
    simpa [State.Going] using stopped
  rw [none, nobody, List.nil_append, Workload.proper, List.filter_nil, List.append_nil] at order
  refine ⟨_, w.proper w.start.pending, returns, ?_, fun i => ?_, ?_, ?_⟩
  · exact (start_head w).sound.sorted.sublist List.filter_sublist
  · have everyone : i ∈ w.start.pending := by
      simp [Workload.start, List.mem_insertionSort]
    simp [Workload.proper, everyone, Nat.pos_iff_ne_zero]
  · rw [← order, ← queued.recursion]
  · intro large positive' enough
    exact (leads_returns positive' (leads_large positive' enough leads)).2

theorem fcfs_recursion_lesson : ∃ r, lesson.Returns .fcfs 2 r ∧ lesson.Returns .rr 6 r := by
  obtain ⟨r, -, returns, -, -, -, large⟩ := fcfs_recursion lesson 2 (by decide)
  exact ⟨r, returns, large 6 (by decide) (by decide)⟩

end Neonos.Scheduling
