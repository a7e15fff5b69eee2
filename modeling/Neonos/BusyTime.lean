import Mathlib
import Neonos.MlfqTrace
import Neonos.SchedulingTable

/-! When the processor is busy does not depend on the policy: the traces of
both simulators are timetables of one machine that never idles while there is
work, and such timetables agree. -/
namespace Neonos

/-! ### The trace of the MLFQ simulator as a timetable -/

namespace Mlfq
open OneMachine

variable {w : Workload n} {t : State n} {x : Tick (Fin n)}

def stamps (trace : List (Tick ι)) : List (Nat × ι) := trace.map fun x => (x.time, x.job)

/-- The schedule as a timetable. -/
def Ended.table (ended : Ended w t) : Timetable w.arrival w.service where
  ticks := stamps t.trace
  ordered := List.pairwise_map.mpr ended.ordered
  whole i := by
    rw [stamps, List.countP_map, ← ended.whole i, times, List.length_map, ← List.countP_eq_length_filter]
    rfl
  arrived e member := by
    obtain ⟨x, inside, rfl⟩ := List.mem_map.mp member
    exact ((ended.fits x.job).past x.time (mem_times.mpr ⟨x, inside, rfl, rfl⟩)).1

/-- Without waits nobody is ever blocked. -/
theorem Ended.conserving (ended : Ended w t) (nowait : ∀ i, w.wait i = 0) : ended.table.Conserving := by
  intro τ idle e member here
  obtain ⟨x, inside, rfl⟩ := List.mem_map.mp member
  by_cases early : τ < t.now
  · have gap : ∀ y ∈ t.trace, y.time ≠ τ := by
      rintro y among rfl
      exact idle (List.mem_map.mpr ⟨_, List.mem_map_of_mem among, rfl⟩)
    rcases ended.idle τ early gap x.job here with ⟨d, past, done⟩ | ⟨k, y, -, -, -, after, before⟩
    · obtain ⟨d', done', last⟩ := ended.done_last inside
      rw [done] at done'
      cases done'
      exact last.trans_le past
    · rw [nowait] at before
      omega
  · exact (ended.toKept.past x inside).trans_le (not_lt.mp early)

/-- The ticks in which some job runs. -/
def Report.busy (r : Report n) : Set Nat := {τ | ∃ x ∈ r.trace, x.time = τ}

theorem Ended.busy (ended : Ended w t) (τ : Nat) : τ ∈ (t.outcome w).busy ↔ τ ∈ ended.table.busy := by
  have seen : ended.table.busy = (t.outcome w).trace.map Tick.time := by
    simp only [Timetable.busy, Ended.table, stamps, State.outcome, List.map_map]
    rfl
  rw [seen, List.mem_map]
  rfl

end Mlfq

/-! ### Both simulators -/

namespace Scheduling
open OneMachine

variable {w : Workload n} {t t' : State n} {i : Fin n}

/-- The union of the executed intervals. -/
def Report.busy (r : Report n) : Set Nat := {τ | ∃ x ∈ r.trace, x.start ≤ τ ∧ τ < x.stop}

/-- The time at which the last job is complete. -/
def Report.lastCompletion (jobs : Fin n → Job) (r : Report n) : WithBot Int :=
  Finset.univ.sup fun i => (((jobs i).arrival + (r.result i).turnaround : Int) : WithBot Int)

theorem Ended.busy (ended : Ended w t) (τ : Nat) :
    τ ∈ Report.busy ⟨t.metrics w, t.trace.map w.label⟩ ↔ τ ∈ ended.table.busy := by
  constructor
  · rintro ⟨y, member, covered⟩
    obtain ⟨x, inside, rfl⟩ := List.mem_map.mp member
    exact List.mem_map.mpr ⟨(τ, x.job), mem_unitTicks.mpr ⟨x, inside, covered.1, covered.2, rfl⟩, rfl⟩
  · intro busy
    obtain ⟨e, member, rfl⟩ := List.mem_map.mp busy
    obtain ⟨x, inside, after, before, -⟩ := mem_unitTicks.mp member
    exact ⟨w.label x, List.mem_map_of_mem inside, after, before⟩

/-- A job is complete when it arrives or at the end of a busy unit of time, and
somebody is complete no earlier under any policy. -/
theorem Ended.completed_by (ended : Ended w t) (ended' : Ended w t') (i : Fin n) :
    ∃ k, w.arrival i + (t.metrics w i).turnaround ≤ w.arrival k + (t'.metrics w k).turnaround := by
  rcases Nat.eq_zero_or_pos (w.service i) with zero | proper
  · have done : t.done i = some (w.arrival i) := by
      refine (ended.empty i zero).elim (fun coming => ?_) And.right
      rw [ended.drained] at coming
      cases coming
    obtain ⟨f, d, -, done', after, before⟩ := ended'.bounds i
    refine ⟨i, ?_⟩
    simp only [State.metrics, done, done', Option.getD_some]
    omega
  · obtain ⟨-, y, -, last, -, done, -⟩ := ended.endpoints proper
    have inside := (mem_own.mp (List.mem_of_mem_getLast? last)).1
    have running := ended.positive y inside
    have busy : y.stop - 1 ∈ ended.table.busy :=
      (ended.busy _).mp ⟨w.label y, List.mem_map_of_mem inside, by simp only [Workload.label]; omega⟩
    rw [busy_unique ended.table ended'.table ended.conserving ended'.conserving] at busy
    obtain ⟨x', member, after, before⟩ := (ended'.busy _).mpr busy
    obtain ⟨x, inside', rfl⟩ := List.mem_map.mp member
    obtain ⟨d, done', past⟩ := ended'.done_last inside'
    refine ⟨x.job, ?_⟩
    simp only [Workload.label] at after before
    simp only [State.metrics, done, done', Option.getD_some]
    omega

/-- For every list of uniquely named jobs with no negative time, one set of
busy times and one last completion time serve every policy and every quantum,
and the busy times serve the MLFQ simulator as well: any bursts without waits,
either policy, any boost period. -/
theorem busy_time (jobs : Fin n → Job) (named : Function.Injective fun i => (jobs i).name)
    (proper : ∀ i, 0 ≤ (jobs i).arrival ∧ 0 ≤ (jobs i).service) :
    ∃ (busy : Set Nat) (last : WithBot Int),
      (∀ policy quantum, 0 < quantum →
        ∃ r, Simulates jobs policy quantum r ∧ r.busy = busy ∧ r.lastCompletion jobs = last) ∧
      ∀ jobs' : Fin n → Mlfq.Job, (∀ i, (jobs' i).name = (jobs i).name ∧ (jobs' i).arrival = (jobs i).arrival ∧
          (jobs' i).service = (jobs i).service ∧ 0 ≤ (jobs' i).burst ∧ (jobs' i).wait = 0) →
        ∀ policy period, 0 < period → ∃ r, Mlfq.Simulates jobs' policy period r ∧ r.busy = busy := by
  obtain ⟨w, accepted, same⟩ := validate_accepts jobs named proper
  have run (policy : Policy) (quantum : Nat) (positive : 0 < quantum) :
      ∃ t, Ended w t ∧ Simulates jobs policy quantum ⟨t.metrics w, t.trace.map w.label⟩ := by
    obtain ⟨t, leads, -⟩ := schedule_ends w policy positive
    obtain ⟨ended, returns⟩ := leads_returns positive leads
    exact ⟨t, ended, Returns.simulate accepted positive returns⟩
  obtain ⟨t₀, ended₀, -⟩ := run .fcfs 1 Nat.one_pos
  refine ⟨Report.busy ⟨t₀.metrics w, t₀.trace.map w.label⟩,
    Report.lastCompletion jobs ⟨t₀.metrics w, t₀.trace.map w.label⟩, fun policy quantum positive => ?_,
    fun jobs' agree policy period positive => ?_⟩
  · obtain ⟨t, ended, simulates⟩ := run policy quantum positive
    refine ⟨_, simulates, ?_, ?_⟩
    · ext τ
      rw [ended.busy, ended₀.busy, busy_unique ended.table ended₀.table ended.conserving ended₀.conserving]
    · have upto {a b : State n} (ends : Ended w a) (ends' : Ended w b) :
          Report.lastCompletion jobs ⟨a.metrics w, a.trace.map w.label⟩ ≤
            Report.lastCompletion jobs ⟨b.metrics w, b.trace.map w.label⟩ := by
        refine Finset.sup_le fun i _ => ?_
        obtain ⟨k, before⟩ := ends.completed_by ends' i
        rw [(same i).2.1, (same k).2.1] at before
        refine (WithBot.coe_le_coe.mpr before).trans ?_
        exact Finset.le_sup (f := fun k => (((jobs k).arrival + (b.metrics w k).turnaround : Int) : WithBot Int))
          (Finset.mem_univ k)
      exact le_antisymm (upto ended ended₀) (upto ended₀ ended)
  · have accepted' : Mlfq.Accepted jobs' := by
      refine ⟨fun i k equal => named ?_, fun i => ?_⟩
      · exact ((agree i).1.symm.trans equal).trans (agree k).1
      · obtain ⟨-, arrival, service, burst, wait⟩ := agree i
        have both := proper i
        omega
    obtain ⟨w', valid', holds⟩ := Mlfq.validate_accepts accepted'
    obtain ⟨t, leads, -⟩ := Mlfq.schedule_ends w' policy period
    obtain ⟨ended, returns⟩ := Mlfq.leads_returns leads
    refine ⟨_, Mlfq.Returns.simulate valid' positive returns, ?_⟩
    have nowait (i : Fin n) : w'.wait i = 0 := by
      have wait := holds.wait i
      rw [(agree i).2.2.2.2] at wait
      exact Int.natCast_eq_zero.mp wait
    have arrival : w'.arrival = w.arrival := by
      funext i
      have there := holds.arrival i
      rw [(agree i).2.1, ← (same i).2.1] at there
      exact Int.ofNat_inj.mp there
    have service : w'.service = w.service := by
      funext i
      have there := holds.service i
      rw [(agree i).2.2.1, ← (same i).2.2] at there
      exact Int.ofNat_inj.mp there
    ext τ
    rw [ended.busy, ended₀.busy]
    rw [busy_shared ended₀.table ended.table arrival service ended₀.conserving (ended.conserving nowait)]

theorem busy_time_course : ∃ (busy : Set Nat) (last : WithBot Int),
    (∀ policy quantum, 0 < quantum →
      ∃ r, Simulates course policy quantum r ∧ r.busy = busy ∧ r.lastCompletion course = last) ∧
    ∀ jobs' : Fin 3 → Mlfq.Job, (∀ i, (jobs' i).name = (course i).name ∧
        (jobs' i).arrival = (course i).arrival ∧ (jobs' i).service = (course i).service ∧
        0 ≤ (jobs' i).burst ∧ (jobs' i).wait = 0) →
      ∀ policy period, 0 < period → ∃ r, Mlfq.Simulates jobs' policy period r ∧ r.busy = busy :=
  busy_time course course_accepted.1 course_accepted.2

end Scheduling

end Neonos
