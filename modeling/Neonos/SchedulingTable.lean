import Neonos.OneMachine
import Neonos.SchedulingTrace

/-! The trace of the scheduling simulator tick by tick is a timetable of one
machine that never idles while there is work. -/
namespace Neonos.Scheduling
open OneMachine

variable {w : Workload n} {t : State n} {i : Fin n}

section ticks
variable {ι : Type} {x : Slice ι} {trace : List (Slice ι)} {e : Nat × ι}

/-- The ticks of a slice, each with its job. -/
def Slice.ticks (x : Slice ι) : List (Nat × ι) := (List.range' x.start x.length).map fun τ => (τ, x.job)

def unitTicks (trace : List (Slice ι)) : List (Nat × ι) := trace.flatMap Slice.ticks

theorem mem_ticks : e ∈ x.ticks ↔ x.start ≤ e.1 ∧ e.1 < x.stop ∧ e.2 = x.job := by
  obtain ⟨τ, k⟩ := e
  simp only [Slice.ticks, Slice.length, List.mem_map, List.mem_range'_1, Prod.mk.injEq]
  constructor
  · rintro ⟨σ, inside, rfl, rfl⟩
    exact ⟨inside.1, by omega, rfl⟩
  · rintro ⟨after, before, rfl⟩
    exact ⟨τ, ⟨after, by omega⟩, rfl, rfl⟩

theorem mem_unitTicks :
    e ∈ unitTicks trace ↔ ∃ x ∈ trace, x.start ≤ e.1 ∧ e.1 < x.stop ∧ e.2 = x.job := by
  simp only [unitTicks, List.mem_flatMap, mem_ticks]

theorem unitTicks_append (first second : List (Slice ι)) :
    unitTicks (first ++ second) = unitTicks first ++ unitTicks second :=
  List.flatMap_append

theorem unitTicks_ordered (ordered : trace.Pairwise fun x y => x.stop ≤ y.start) :
    (unitTicks trace).Pairwise fun a b => a.1 < b.1 := by
  refine List.pairwise_flatMap.mpr ⟨fun x _ => ?_, ordered.imp fun before a first b second => ?_⟩
  · exact List.pairwise_map.mpr (List.pairwise_lt_range' 1)
  · have inside := mem_ticks.mp first
    have inside' := mem_ticks.mp second
    omega

theorem countP_unitTicks [DecidableEq ι] (trace : List (Slice ι)) (k : ι) :
    (unitTicks trace).countP (fun e => e.2 = k) = served trace k := by
  induction trace using List.reverseRecOn with
  | nil => rfl
  | append_singleton trace x ih =>
    have slice : (Slice.ticks x).countP (fun e => e.2 = k) = if x.job = k then x.length else 0 := by
      rw [Slice.ticks, List.countP_map]
      by_cases mine : x.job = k
      · simp [mine, Function.comp_def]
      · simp [mine, Function.comp_def]
    rw [unitTicks_append, List.countP_append, ih, served_snoc, ← slice]
    simp [unitTicks]

end ticks

/-- Only jobs with work to do have slices. -/
theorem Ended.proper (ended : Ended w t) (member : x ∈ t.trace) : 0 < w.service x.job := by
  have mine : x ∈ own t.trace x.job := mem_own.mpr ⟨member, rfl⟩
  have long : x.length ≤ served t.trace x.job := List.le_sum_of_mem (List.mem_map_of_mem mine)
  have running := ended.positive x member
  rw [ended.whole, Slice.length] at long
  omega

/-- No slice of a job ends after the job is done. -/
theorem Ended.done_last (ended : Ended w t) (member : x ∈ t.trace) :
    ∃ d, t.done x.job = some d ∧ x.stop ≤ d := by
  have mine : x ∈ own t.trace x.job := mem_own.mpr ⟨member, rfl⟩
  obtain ⟨-, y, -, last, -, done, -⟩ := ended.endpoints (ended.proper member)
  obtain ⟨front, shape⟩ := List.getLast?_eq_some_iff.mp last
  have sorted : (own t.trace x.job).Pairwise fun x y => x.stop ≤ y.start :=
    ended.ordered.sublist List.filter_sublist
  refine ⟨y.stop, done, ?_⟩
  rw [shape] at mine sorted
  rcases List.mem_append.mp mine with before | same
  · have apart := (List.pairwise_append.mp sorted).2.2 x before y (by simp)
    have among : y ∈ own t.trace x.job := shape ▸ by simp
    have running := ended.positive y (mem_own.mp among).1
    omega
  · rw [List.mem_singleton.mp same]

/-- The schedule as a timetable. -/
def Ended.table (ended : Ended w t) : Timetable w.arrival w.service where
  ticks := unitTicks t.trace
  ordered := unitTicks_ordered ended.ordered
  whole i := (countP_unitTicks t.trace i).trans (ended.whole i)
  arrived e member := by
    obtain ⟨x, inside, after, -, job⟩ := mem_unitTicks.mp member
    rw [job]
    exact (ended.arrived x inside).trans after

theorem Ended.conserving (ended : Ended w t) : ended.table.Conserving := by
  intro τ idle e member here
  obtain ⟨x, inside, -, before, job⟩ := mem_unitTicks.mp member
  by_cases early : τ < t.now
  · have gap : ∀ y ∈ t.trace, τ < y.start ∨ y.stop ≤ τ := by
      intro y among
      by_contra covered
      have mine : (τ, y.job) ∈ unitTicks t.trace := mem_unitTicks.mpr ⟨y, among, by omega, by omega, rfl⟩
      exact idle (List.mem_map.mpr ⟨_, mine, rfl⟩)
    obtain ⟨d, past, done⟩ := ended.idle τ early gap e.2 here
    obtain ⟨d', done', last⟩ := ended.done_last inside
    rw [← job, done] at done'
    cases done'
    omega
  · have past := ended.past x inside
    omega

end Neonos.Scheduling
