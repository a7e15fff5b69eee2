import Neonos.SchedulingTrace

/-! FCFS and SJF do not preempt: what they write down is one server taking whole
jobs one after the other. -/
namespace Neonos.Scheduling
open WhileLoop

variable {w : Workload n} {policy : Policy} {quantum : Nat} {s t : State n} {i j : Fin n}

/-- One server that is free from `free` on and takes the jobs in order: each
starts when the one before has ended and it has arrived itself. -/
def Workload.oneServer (w : Workload n) : Nat → List (Fin n) → List (Slice (Fin n))
  | _, [] => []
  | free, i :: rest =>
    let start := max free (w.arrival i)
    ⟨i, start, start + w.service i⟩ :: w.oneServer (start + w.service i) rest

/-- The end of the last slice; 0 before the first. -/
def freeFrom (trace : List (Slice ι)) : Nat := (trace.getLast?.map Slice.stop).getD 0

theorem freeFrom_snoc (trace : List (Slice ι)) (x : Slice ι) : freeFrom (trace ++ [x]) = x.stop := by
  simp [freeFrom]

theorem oneServer_snoc (w : Workload n) (free : Nat) (line : List (Fin n)) (i : Fin n) :
    ∃ start, w.oneServer free (line ++ [i]) = w.oneServer free line ++ [⟨i, start, start + w.service i⟩] ∧
      start = max (((w.oneServer free line).getLast?.map Slice.stop).getD free) (w.arrival i) := by
  induction line generalizing free with
  | nil => exact ⟨_, rfl, rfl⟩
  | cons k line ih =>
    obtain ⟨start, shape, begins⟩ := ih (max free (w.arrival k) + w.service k)
    refine ⟨start, congrArg _ shape, ?_⟩
    rw [begins, Workload.oneServer]
    cases rest : w.oneServer (max free (w.arrival k) + w.service k) line with
    | nil => rfl
    | cons y post => rfl

/-- So far every job that has run has run whole, one after the other. -/
structure Serial (w : Workload n) (s : State n) : Prop where
  recursion : s.trace = w.oneServer 0 (s.trace.map Slice.job)
  distinct : (s.trace.map Slice.job).Nodup
  finished : ∀ x ∈ s.trace, s.remaining x.job = 0
  past : freeFrom s.trace ≤ s.now
  busy : s.ready ≠ [] → s.now = freeFrom s.trace

theorem start_serial (w : Workload n) : Serial w w.start :=
  ⟨rfl, List.nodup_nil, nofun, le_rfl, nofun⟩

/-- A slice starts when the server is free and its job has come. -/
theorem Serial.begins (serial : Serial w s) (head : AtHead w s) (going : s.Going)
    (mine : i ∈ (w.arrive (w.jump s)).ready) :
    (w.arrive (w.jump s)).now = max (freeFrom s.trace) (w.arrival i) := by
  obtain ⟨jumped, early, later⟩ := head.jump going
  obtain ⟨now, -, -, -, -, -, -⟩ := arrive_arrived w (w.jump s)
  have arrived := (jumped.arrive.waiting i (.inl mine)).1
  have past := serial.past
  rw [now] at arrived ⊢
  rcases jump_cases (w := w) going with ⟨some, same⟩ | ⟨k, rest, none, -, same⟩
  · have busy := serial.busy some
    rw [same] at arrived ⊢
    omega
  · have coming : i ∈ s.pending := by
      rcases (jumped.arrives.2 i).mp mine with ready | ⟨coming, -⟩
      · rw [(jump_other w s).2.1, none] at ready
        cases ready
      · rw [(jump_other w s).2.2.1] at coming
        exact coming
    have due := early i coming
    omega

/-- A job with work left has all of it left. -/
theorem Serial.whole (serial : Serial w s) (recorded : Recorded w s) (more : 0 < s.remaining i) :
    i ∉ s.trace.map Slice.job ∧ s.remaining i = w.service i := by
  have fresh : ∀ x ∈ s.trace, x.job ≠ i := by
    rintro x member rfl
    have none := serial.finished x member
    omega
  refine ⟨fun member => ?_, ?_⟩
  · obtain ⟨x, inside, same⟩ := List.mem_map.mp member
    exact fresh x inside same
  · have account := recorded.served i
    rw [served_none fresh] at account
    omega

/-- The slice of a pass that serves one. -/
theorem Serial.serves (serial : Serial w s) (kept : Kept w s) (going : s.Going) (whole : policy ≠ .rr)
    (serves : Serves w policy quantum s a t i rest) :
    t.trace = s.trace ++ [⟨i, a.now, a.now + w.service i⟩] ∧ t.now = a.now + w.service i ∧
      a.now = max (freeFrom s.trace) (w.arrival i) ∧ i ∉ s.trace.map Slice.job ∧
      a.remaining i = w.service i ∧ t.remaining = Function.update s.remaining i 0 := by
  have mine : i ∈ a.ready := (select_some serves.chosen).1.mem_iff.mpr (by simp)
  have more := (serves.sound.waiting i (.inl mine)).2.1
  have duration : a.duration policy quantum i = a.remaining i := by
    cases policy with
    | fcfs | sjf => rfl
    | rr => exact absurd rfl whole
  have left := serves.served
  rw [serves.remaining] at more
  obtain ⟨fresh, all⟩ := serial.whole kept.recorded more
  rw [← serves.remaining] at all
  have now := serves.now
  rw [duration, all] at now
  refine ⟨?_, now, ?_, fresh, all, ?_⟩
  · rw [serves.trace, now]
  · rw [serves.arrived] at mine ⊢
    exact serial.begins kept.head going mine
  · rw [left, duration, Nat.sub_self, serves.remaining]

theorem Serial.pass (serial : Serial w s) (kept : Kept w s) (going : s.Going) (whole : policy ≠ .rr) :
    Serial w (w.pass policy quantum s) := by
  rcases kept.head.turn going policy quantum with idles | ⟨a, i, rest, serves⟩
  · have trace := idles.trace
    refine ⟨?_, ?_, ?_, ?_, fun some => absurd idles.ready some⟩
    · rw [trace]
      exact serial.recursion
    · rw [trace]
      exact serial.distinct
    · rw [trace, idles.remaining]
      exact serial.finished
    · rw [trace]
      exact serial.past.trans idles.later
  · obtain ⟨trace, now, begins, fresh, -, remaining⟩ := serial.serves kept going whole serves
    refine ⟨?_, ?_, ?_, ?_, fun _ => ?_⟩
    · obtain ⟨start, shape, starts⟩ := oneServer_snoc w 0 (s.trace.map Slice.job) i
      rw [← serial.recursion] at shape starts
      have same : start = a.now := starts.trans begins.symm
      rw [trace, List.map_append, List.map_singleton, shape, same]
    · rw [trace, List.map_append, List.map_singleton]
      refine List.nodup_append.mpr ⟨serial.distinct, List.nodup_singleton _, ?_⟩
      rintro j before k last rfl
      obtain rfl : j = i := List.mem_singleton.mp last
      exact fresh before
    · rw [trace, remaining]
      intro x member
      rcases List.mem_append.mp member with before | last
      · rw [Function.update_apply, serial.finished x before, ite_self]
      · rw [List.mem_singleton.mp last]
        exact Function.update_self _ _ _
    · rw [trace, freeFrom_snoc, now]
    · rw [trace, freeFrom_snoc, now]

end Neonos.Scheduling
