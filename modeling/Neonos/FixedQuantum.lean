import Neonos.TrapAccounts

/-! The RR quantum. Its end is fixed when the task is dispatched; ordinary
syscalls return under the same deadline, however many there are. -/
namespace Neonos.Scheduler
open Runs

/-- The trap gives the CPU back to its task: an ordinary syscall before `quantumEnd`. -/
def Pass.Returns (quantumEnd : Nat) (p : Pass) : Prop :=
  p.event.reason = .syscall ∧ p.event.time < quantumEnd

/-- One entry of task `i` in the quantum that ends at `quantumEnd`. -/
structure InQuantum (b : Batch) (quantumEnd : Nat) (i : TaskId) (p : Pass) : Prop where
  task : p.task = i
  arms : p.entry.stie = true ∧ p.entry.timecmp = quantumEnd
  stays : p.after.current = some i ↔ p.Returns quantumEnd
  leaves : ¬ p.Returns quantumEnd → p.after.current = none ∧
    ((b.Ends i p.event.reason ∧ (p.after.tasks i).state = .done) ∨
      ((p.after.tasks i).state = .ready ∧ p.after.ready.contents = p.entry.ready.contents ++ [i]))

namespace Batch
variable {b : Batch} {h h' : Head} {p : Pass} {passes during : List Pass} {i : TaskId}

/-- Under RR the deadline is computed at a dispatch and kept by everything else. -/
theorem step_deadline (policy : b.policy = .rr) (coherent : Coherent b h.loop) (step : b.Step h p h') :
    p.entry.deadline = (if p.dispatched = none then p.before.deadline else p.readings.quantum + T) ∧
      p.after.deadline = p.entry.deadline := by
  have off : b.mlfq = false := by simp [mlfq, policy]
  obtain ⟨programmed, back, counted⟩ := step_counted coherent step
  obtain ⟨before, -⟩ := step
  constructor
  · rw [programmed.deadline off, ← before]
    cases held : p.before.current with
    | none => simp [Pass.dispatched, held]
    | some j => simp [Pass.dispatched, held]
  · rcases counted.deadline with same | ⟨limit, other, -⟩
    · exact same
    · rw [policy] at other
      cases other

/-- One entry under RR, whatever the deadline it is made under. -/
theorem step_inQuantum (policy : b.policy = .rr) (coherent : Coherent b h.loop)
    (step : b.Step h p h') : InQuantum b p.entry.deadline p.task p := by
  have arms : b.Arms (p.entry.tasks p.task) := by simp [Arms, policy]
  obtain ⟨programmed, back, counted⟩ := step_counted coherent step
  have passed := step_view coherent step
  have held : p.entry.current = some p.task := passed.entered.current
  have back_iff : back = false ∧ ¬ b.Ends p.task p.event.reason ↔ p.Returns p.entry.deadline := by
    constructor
    · rintro ⟨rfl, goes⟩
      rcases counted.reason with ends | yields | ticks | calls
      · exact absurd ends goes
      · exact absurd (counted.yielding yields) (by simp)
      · exact absurd ((counted.ticking ticks).mpr (by simp [policy])) (by simp)
      · refine ⟨calls, ?_⟩
        by_contra late
        exact absurd ((counted.quantum calls policy).mpr (Nat.le_of_not_lt late)) (by simp)
    · rintro ⟨calls, early⟩
      refine ⟨?_, fun ends => ends.neither.2.2 calls⟩
      by_contra up
      have late := (counted.quantum calls policy).mp (by simpa using up)
      exact absurd early (Nat.not_lt.mpr late)
  refine ⟨rfl, ?_, ?_, ?_⟩
  · rw [programmed.stie, programmed.timecmp, if_pos arms, if_pos arms]
    exact ⟨rfl, rfl⟩
  · rw [← back_iff]
    cases back with
    | true => simp [(counted.goes rfl).1]
    | false =>
      rcases (counted.stays rfl).2 with ⟨ends, current, -⟩ | ⟨goes, current, -⟩
      · have ends' : b.Ends p.task p.event.reason := ends
        simp [current, ends']
      · have goes' : ¬ b.Ends p.task p.event.reason := goes
        have stays : p.after.current = some p.task := current.trans held
        simp [stays, goes']
  · rw [← back_iff]
    intro leaves
    cases back with
    | true =>
      obtain ⟨current, state, line⟩ := counted.goes rfl
      exact ⟨current, .inr ⟨state, line⟩⟩
    | false =>
      rcases (counted.stays rfl).2 with ⟨ends, current, state⟩ | ⟨goes, -⟩
      · exact ⟨current, .inl ⟨ends, state⟩⟩
      · exact absurd ⟨rfl, goes⟩ leaves

/-- What is true after a dispatch and the passes that follow it without another. -/
structure Tenure (b : Batch) (quantumEnd : Nat) (i : TaskId) (first : Pass) (during : List Pass)
    (h : Head) : Prop where
  inside : ∀ q ∈ first :: during, InQuantum b quantumEnd i q
  returned : ∀ q ∈ (first :: during).dropLast, q.Returns quantumEnd
  deadline : h.loop.deadline = quantumEnd
  last : h.loop = ((first :: during).getLast (by simp)).after

/-- The task keeps the CPU as long as its last trap allows. -/
theorem Tenure.current (tenure : b.Tenure quantumEnd i p during h) :
    h.loop.current = some i ↔ ((p :: during).getLast (by simp)).Returns quantumEnd := by
  rw [tenure.last]
  exact (tenure.inside _ (List.getLast_mem _)).stays

theorem Tenure.held (tenure : b.Tenure quantumEnd i p during h) (held : h.loop.current = some j) :
    j = i ∧ ((p :: during).getLast (by simp)).Returns quantumEnd := by
  by_cases returns : ((p :: during).getLast (by simp)).Returns quantumEnd
  · have current := tenure.current.mpr returns
    rw [held] at current
    exact ⟨Option.some.inj current, returns⟩
  · have idle := ((tenure.inside _ (List.getLast_mem (by simp))).leaves returns).1
    rw [← tenure.last, held] at idle
    cases idle

/-- A pass that dispatches nobody runs the task that was running. -/
theorem Passed.held (passed : b.Passed h p h') (keeps : p.dispatched = none) :
    h.loop.current = some p.task := by
  rcases passed.entered.choice with ⟨held, -⟩ | ⟨idle, -⟩
  · exact held
  · simp [Pass.dispatched, passed.before, idle] at keeps

theorem tenure_run (policy : b.policy = .rr) (coherent : Coherent b h.loop)
    (tenure : b.Tenure quantumEnd i p [] h) (run : Run b.Step h during h')
    (keeps : ∀ q ∈ during, q.dispatched = none) : b.Tenure quantumEnd i p during h' := by
  induction run with
  | nil => exact tenure
  | @snoc during m q h' run last ih =>
    have so_far := ih (fun q member => keeps q (List.mem_append_left _ member))
    have middle := run_coherent coherent run
    have passed := step_view middle last
    have quiet := keeps q (by simp)
    have held := passed.held quiet
    obtain ⟨deadline, kept⟩ := step_deadline policy middle last
    rw [if_pos quiet, passed.before, so_far.deadline] at deadline
    have own := so_far.held held
    have inside := step_inQuantum policy middle last
    rw [deadline, own.1] at inside
    refine ⟨?_, ?_, ?_, ?_⟩
    · intro q' member
      rw [← List.cons_append, List.mem_append, List.mem_singleton] at member
      rcases member with earlier | rfl
      · exact so_far.inside q' earlier
      · exact inside
    · intro q' member
      rw [← List.cons_append, List.dropLast_concat] at member
      rw [← List.dropLast_append_getLast (show p :: during ≠ [] by simp), List.mem_append,
        List.mem_singleton] at member
      rcases member with earlier | rfl
      · exact so_far.returned q' earlier
      · exact own.2
    · rw [passed.after, kept, deadline]
    · simp [passed.after]

/-- Ordinary syscalls never extend an RR quantum. From each dispatch until the
task leaves the CPU, every entry arms the one deadline computed at the
dispatch, and the first trap that is no syscall, or comes at the deadline or
later, takes the CPU away. Nothing but a dispatch computes a deadline. -/
theorem quantum_fixed (b : Batch) (policy : b.policy = .rr) (reached : b.Reaches passes h) :
    (∀ before p during later, passes = before ++ p :: (during ++ later) → p.dispatched ≠ none →
      (∀ q ∈ during, q.dispatched = none) →
      (∀ q ∈ p :: during, InQuantum b (p.readings.quantum + T) p.task q) ∧
      (∀ q ∈ (p :: during).dropLast, q.Returns (p.readings.quantum + T)) ∧
      ∀ next rest, later = next :: rest → (next.dispatched = none ↔
        ((p :: during).getLast (by simp)).Returns (p.readings.quantum + T))) ∧
    ∀ q ∈ passes,
      q.entry.deadline = (if q.dispatched = none then q.before.deadline else q.readings.quantum + T) ∧
      q.after.deadline = q.entry.deadline := by
  obtain ⟨s, started, run⟩ := reached
  have coherent := start_coherent started
  constructor
  · rintro before p during later rfl chosen keeps
    obtain ⟨h₀, earlier, from_⟩ := run.split
    obtain ⟨h₁, dispatch, onward⟩ := from_.uncons
    obtain ⟨h₂, spent, rest⟩ := onward.split
    have coherent₀ := run_coherent coherent earlier
    have passed := step_view coherent₀ dispatch
    have coherent₁ := step_coherent coherent₀ dispatch
    obtain ⟨deadline, kept⟩ := step_deadline policy coherent₀ dispatch
    rw [if_neg chosen] at deadline
    have inside := step_inQuantum policy coherent₀ dispatch
    rw [deadline] at inside kept
    have begun : b.Tenure (p.readings.quantum + T) p.task p [] h₁ := by
      refine ⟨?_, by simp, ?_, passed.after⟩
      · intro q member
        rw [List.mem_singleton.mp member]
        exact inside
      · rw [passed.after, kept]
    have tenure := tenure_run policy coherent₁ begun spent keeps
    refine ⟨tenure.inside, tenure.returned, ?_⟩
    rintro next rest' rfl
    obtain ⟨_, step, -⟩ := rest.uncons
    have after := step_view (run_coherent coherent₁ spent) step
    constructor
    · intro quiet
      exact (tenure.held (after.held quiet)).2
    · intro returns
      simp [Pass.dispatched, after.before, tenure.current.mpr returns]
  · intro q member
    obtain ⟨_, m, m', _, rfl, earlier, step, -⟩ := run.taken member
    exact step_deadline policy (run_coherent coherent earlier) step

end Batch

/-- The first task makes a syscall and is preempted, then the second exits. -/
def calling : List (Readings × Exchange) :=
  [(.instant 0 3000, ⟨0, ZERO_FRAME, .syscall, 3000⟩),
    (.instant 4000 10000, ⟨0, ZERO_FRAME, .timer, 10000⟩),
    (.instant 10000 15000, ⟨0, ZERO_FRAME, .exit 0, 15000⟩)]

theorem quantum_fixed_rehearsal : ∃ p q rest h, (rehearsal .rr).Reaches (p :: q :: rest) h ∧
    p.Returns (p.readings.quantum + T) ∧ InQuantum (rehearsal .rr) (p.readings.quantum + T) p.task q := by
  have plays : ((rehearsal .rr).play calling).map (fun run => run.1.map fun p => p.dispatched.isSome) =
      some [true, false, true] := by decide +kernel
  obtain ⟨⟨passes, h⟩, played, chosen⟩ := Option.map_eq_some_iff.mp plays
  have reached := Batch.play_reaches played
  have three : passes.length = 3 := by simpa using congrArg List.length chosen
  obtain ⟨p, q, last, rfl⟩ := List.length_eq_three.mp three
  simp only [List.map_cons, List.map_nil, List.cons.injEq, and_true] at chosen
  have fixed := (Batch.quantum_fixed (rehearsal .rr) rfl reached).1 [] p [q] [last] rfl
    (by simpa [Option.isSome_iff_ne_none] using chosen.1) (by simpa using chosen.2.1)
  exact ⟨p, q, [last], h, reached, fixed.2.1 p (by simp), fixed.1 q (by simp)⟩

end Neonos.Scheduler
