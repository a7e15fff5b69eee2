import Mathlib
import Neonos.SchedulingPass

/-! The schedule the scheduling simulator writes down: it is valid, complete
and never idle without reason, and the simulator always gets to its end. -/
namespace Neonos.Scheduling
open StableChoice WhileLoop SortedLine

variable {w : Workload n} {policy : Policy} {quantum : Nat} {s t : State n} {i j : Fin n}

/-! ### The slices of one job -/

section own
variable [DecidableEq ι] {trace : List (Slice ι)} {x : Slice ι} {k : ι}

def own (trace : List (Slice ι)) (k : ι) : List (Slice ι) := trace.filter fun x => x.job = k

def Slice.length (x : Slice ι) : Nat := x.stop - x.start

/-- The time a trace gives to one job. -/
def served (trace : List (Slice ι)) (k : ι) : Nat := ((own trace k).map Slice.length).sum

theorem own_snoc (trace : List (Slice ι)) (x : Slice ι) (k : ι) :
    own (trace ++ [x]) k = own trace k ++ if x.job = k then [x] else [] := by
  unfold own
  by_cases mine : x.job = k <;> simp [mine]

theorem own_other (different : x.job ≠ k) : own (trace ++ [x]) k = own trace k := by
  rw [own_snoc, if_neg different, List.append_nil]

theorem own_mine (trace : List (Slice ι)) (x : Slice ι) : own (trace ++ [x]) x.job = own trace x.job ++ [x] := by
  rw [own_snoc, if_pos rfl]

theorem served_snoc (trace : List (Slice ι)) (x : Slice ι) (k : ι) :
    served (trace ++ [x]) k = served trace k + if x.job = k then x.length else 0 := by
  unfold served
  rw [own_snoc]
  by_cases mine : x.job = k <;> simp [mine]

theorem mem_own : x ∈ own trace k ↔ x ∈ trace ∧ x.job = k := by
  simp [own]

theorem served_append (first second : List (Slice ι)) (k : ι) :
    served (first ++ second) k = served first k + served second k := by
  simp [served, own]

/-- A job outside the slices since keeps what it had. -/
theorem served_none {mid : List (Slice ι)} (others : ∀ y ∈ mid, y.job ≠ k) :
    served mid k = 0 := by
  have none : own mid k = [] := by
    rw [own, List.filter_eq_nil_iff]
    exact fun y member => by simpa using others y member
  simp [served, none]

/-- The time a trace gives to anybody is the time it gives to each. -/
theorem served_total [Fintype ι] (trace : List (Slice ι)) :
    (trace.map Slice.length).sum = ∑ k, served trace k := by
  induction trace using List.reverseRecOn with
  | nil => simp [served, own]
  | append_singleton trace x ih =>
    have split (k : ι) : served (trace ++ [x]) k = served trace k + if x.job = k then x.length else 0 :=
      served_snoc trace x k
    simp [split, Finset.sum_add_distrib, ih]

end own

/-! ### What the trace says about the state -/

/-- The trace so far accounts for the state. -/
structure Recorded (w : Workload n) (s : State n) : Prop where
  positive : ∀ x ∈ s.trace, x.start < x.stop
  ordered : s.trace.Pairwise fun x y => x.stop ≤ y.start
  past : ∀ x ∈ s.trace, x.stop ≤ s.now
  arrived : ∀ x ∈ s.trace, w.arrival x.job ≤ x.start
  served : ∀ i, served s.trace i + s.remaining i = w.service i
  first : ∀ i, 0 < w.service i → s.first i = (own s.trace i).head?.map Slice.start
  done : ∀ i, 0 < w.service i →
    s.done i = if s.remaining i = 0 then (own s.trace i).getLast?.map Slice.stop else none
  empty : ∀ i, w.service i = 0 →
    i ∈ s.pending ∨ s.first i = some (w.arrival i) ∧ s.done i = some (w.arrival i)
  idle : ∀ τ < s.now, (∀ x ∈ s.trace, τ < x.start ∨ x.stop ≤ τ) →
    ∀ i, w.arrival i ≤ τ → ∃ d ≤ τ, s.done i = some d

theorem start_recorded (w : Workload n) : Recorded w w.start := by
  refine ⟨nofun, List.Pairwise.nil, nofun, nofun, fun i => ?_, fun i _ => rfl, fun i proper => ?_,
    fun i _ => .inl ?_, nofun⟩
  · exact Nat.zero_add _
  · exact (if_neg proper.ne').symm
  · simp [Workload.start, List.mem_insertionSort]

theorem Recorded.arrive (recorded : Recorded w s) : Recorded w (w.arrive s) := by
  obtain ⟨positive, ordered, past, arrived, served, first, done, empty, idle⟩ := recorded
  obtain ⟨now', remaining', trace', pending', -, first', done'⟩ := arrive_arrived w s
  refine ⟨?_, ?_, ?_, ?_, ?_, fun i proper => ?_, fun i proper => ?_, fun i zero => ?_, ?_⟩
  · rwa [trace']
  · rwa [trace']
  · rwa [trace', now']
  · rwa [trace']
  · rwa [trace', remaining']
  · rw [first', trace', if_neg fun zero => proper.ne' zero.2]
    exact first i proper
  · rw [done', trace', remaining', if_neg fun zero => proper.ne' zero.2]
    exact done i proper
  · rw [first', done', pending']
    by_cases came : i ∈ w.came s
    · exact .inr ⟨if_pos ⟨came, zero⟩, if_pos ⟨came, zero⟩⟩
    · rw [if_neg fun both => came both.1, if_neg fun both => came both.1]
      refine (empty i zero).imp (fun member => ?_) id
      have whole := List.takeWhile_append_dropWhile (p := fun i => decide (w.arrival i ≤ s.now)) (l := s.pending)
      rw [← whole] at member
      exact (List.mem_append.mp member).resolve_left came
  · rw [now', trace']
    intro τ before gap i here
    obtain ⟨d, early, ended⟩ := idle τ before gap i here
    rw [done']
    split
    · exact ⟨w.arrival i, here, rfl⟩
    · exact ⟨d, early, ended⟩

/-- Time that passes with nobody ready and nobody due is idle for a reason. -/
theorem AtHead.jump_recorded (head : AtHead w s) (recorded : Recorded w s) (going : s.Going) :
    Recorded w (w.jump s) := by
  obtain ⟨positive, ordered, past, arrived, served, first, done, empty, idle⟩ := recorded
  rcases jump_cases (w := w) going with ⟨-, same⟩ | ⟨i, rest, none, pending, jumped⟩
  · rw [same]
    exact ⟨positive, ordered, past, arrived, served, first, done, empty, idle⟩
  · have sound := head.sound
    rw [jumped]
    refine ⟨positive, ordered, fun x member => (past x member).trans (le_max_left _ _), arrived, served,
      first, done, empty, fun τ before gap j here => ?_⟩
    by_cases old : τ < s.now
    · exact idle τ old gap j here
    · have away : j ∉ s.pending := by
        intro member
        have sorted := sound.sorted
        rw [pending] at member sorted
        have behind : w.arrival i ≤ w.arrival j := by
          rcases List.mem_cons.mp member with rfl | later
          · exact le_rfl
          · exact joins_arrival ((List.pairwise_cons.mp sorted).1 j later)
        have late : τ < max s.now (w.arrival i) := before
        omega
      obtain ⟨-, d, early, ended⟩ := sound.stopped j away (by simp [none]) nofun
      exact ⟨d, by omega, ended⟩

theorem Recorded.requeue (recorded : Recorded w s) (i : Fin n) : Recorded w (s.requeue i) := by
  obtain ⟨now, pending, remaining, first, done, trace⟩ := requeue_other s i
  obtain ⟨positive, ordered, past, arrived, served, first', done', empty, idle⟩ := recorded
  refine ⟨?_, ?_, ?_, ?_, ?_, ?_, ?_, ?_, ?_⟩
  · rwa [trace]
  · rwa [trace]
  · rwa [trace, now]
  · rwa [trace]
  · rwa [trace, remaining]
  · rwa [trace, first]
  · rwa [trace, remaining, done]
  · rwa [pending, first, done]
  · rwa [trace, now, done]

theorem Recorded.work (recorded : Recorded w s) (sound : Sound w none s) (positive : 0 < quantum)
    (chosen : w.select policy s = some (i, rest)) : Recorded w (s.work policy quantum i rest) := by
  obtain ⟨proper, ordered, past, arrived, served, first, done, empty, idle⟩ := recorded
  have mine : i ∈ s.ready := (select_some chosen).1.mem_iff.mpr (by simp)
  obtain ⟨here, left, unfinished⟩ := sound.waiting i (.inl mine)
  have long := duration_pos (s := s) policy positive left
  have short := duration_le policy quantum s i
  generalize slice : (⟨i, s.now, s.now + s.duration policy quantum i⟩ : Slice (Fin n)) = x
  have job : x.job = i := slice ▸ rfl
  have start : x.start = s.now := slice ▸ rfl
  have stop : x.stop = s.now + s.duration policy quantum i := slice ▸ rfl
  have trace : (s.work policy quantum i rest).trace = s.trace ++ [x] := slice ▸ rfl
  have now : (s.work policy quantum i rest).now = s.now + s.duration policy quantum i := rfl
  have others (j : Fin n) (different : j ≠ i) := work_others s policy quantum rest different
  obtain ⟨remaining, first', done'⟩ := work_mine s policy quantum i rest
  have own_j (j : Fin n) (different : j ≠ i) : own (s.trace ++ [x]) j = own s.trace j :=
    own_other (job ▸ different.symm)
  have own_i : own (s.trace ++ [x]) i = own s.trace i ++ [x] := job ▸ own_mine s.trace x
  refine ⟨?_, ?_, ?_, ?_, fun j => ?_, fun j some => ?_, fun j some => ?_, fun j zero => ?_, ?_⟩
  · rw [trace]
    intro y member
    rcases List.mem_append.mp member with before | last
    · exact proper y before
    · rw [List.mem_singleton.mp last, start, stop]
      omega
  · rw [trace]
    refine List.pairwise_append.mpr ⟨ordered, List.pairwise_singleton _ _, fun y before z last => ?_⟩
    rw [List.mem_singleton.mp last, start]
    exact past y before
  · rw [trace, now]
    intro y member
    rcases List.mem_append.mp member with before | last
    · exact (past y before).trans (Nat.le_add_right _ _)
    · rw [List.mem_singleton.mp last, stop]
  · rw [trace]
    intro y member
    rcases List.mem_append.mp member with before | last
    · exact arrived y before
    · rw [List.mem_singleton.mp last, job, start]
      exact here
  · rw [trace, served_snoc, job]
    have before := served j
    by_cases same : j = i
    · subst same
      have long : x.length = s.duration policy quantum j := by
        rw [Slice.length, start, stop, Nat.add_sub_cancel_left]
      rw [if_pos rfl, remaining, long]
      omega
    · rw [if_neg (Ne.symm same), (others j same).1]
      exact before
  · rw [trace]
    by_cases same : j = i
    · subst same
      rw [first', own_i, first j some]
      cases own s.trace j with
      | nil => simp [start]
      | cons head tail => simp
    · rw [(others j same).2.1, own_j j same]
      exact first j some
  · rw [trace]
    by_cases same : j = i
    · subst same
      rw [done', remaining, own_i, unfinished]
      simp [stop]
    · rw [(others j same).2.2, (others j same).1, own_j j same]
      exact done j some
  · have different : j ≠ i := by
      rintro rfl
      have whole := served j
      omega
    rw [(others j different).2.1, (others j different).2.2]
    exact empty j zero
  · rw [trace, now]
    intro τ before gap j arrival
    have outside := gap x (by simp)
    rw [start, stop] at outside
    obtain ⟨d, early, ended⟩ := idle τ (by omega) (fun y member => gap y (by simp [member])) j arrival
    have different : j ≠ i := by
      rintro rfl
      exact absurd (unfinished.symm.trans ended) nofun
    exact ⟨d, early, (others j different).2.2.trans ended⟩

/-- Everything that holds at the head of the loop. -/
structure Kept (w : Workload n) (s : State n) : Prop where
  head : AtHead w s
  recorded : Recorded w s

theorem start_kept (w : Workload n) : Kept w w.start := ⟨start_head w, start_recorded w⟩

theorem Kept.pass (kept : Kept w s) (going : s.Going) (positive : 0 < quantum) :
    Kept w (w.pass policy quantum s) := by
  obtain ⟨head, recorded⟩ := kept
  refine ⟨head.pass going, ?_⟩
  have before := (head.jump_recorded recorded going).arrive
  obtain ⟨a, rfl, sound, -, ⟨-, same⟩ | ⟨i, rest, chosen, same⟩⟩ := head.cases going policy quantum
  · rw [same]
    exact before
  · rw [same]
    exact (before.work sound positive chosen).arrive.requeue i

/-! ### The end of the loop -/

/-- Work left and arrivals left. -/
def left (s : State n) : Nat := ∑ i, s.remaining i + s.pending.length

theorem AtHead.decreases (head : AtHead w s) (going : s.Going) (positive : 0 < quantum) :
    left (w.pass policy quantum s) < left s := by
  obtain ⟨-, idle, line, work⟩ := jump_other w s
  obtain ⟨-, remaining, -, pending, ready, -, -⟩ := arrive_arrived w (w.jump s)
  obtain ⟨a, rfl, sound, -, ⟨nobody, same⟩ | ⟨i, rest, chosen, same⟩⟩ := head.cases going policy quantum
  · -- Nobody was ready, so time has moved to the first arrival.
    rw [ready, idle, List.append_eq_nil_iff] at nobody
    rcases jump_cases (w := w) going with ⟨some, -⟩ | ⟨i, others, -, first, moved⟩
    · exact absurd nobody.1 some
    · unfold left
      rw [same, remaining, work, pending, line, first, List.dropWhile_cons_of_pos (by simp [moved])]
      have shorter := (List.dropWhile_sublist (fun i => decide (w.arrival i ≤ (w.jump s).now))
        (l := others)).length_le
      rw [List.length_cons]
      omega
  · generalize w.arrive (w.jump s) = a at *
    have mine : i ∈ a.ready := (select_some chosen).1.mem_iff.mpr (by simp)
    have long := duration_pos (s := a) policy positive (sound.waiting i (.inl mine)).2.1
    have short := duration_le policy quantum a i
    obtain ⟨-, pending', remaining', -⟩ := requeue_other (w.arrive (a.work policy quantum i rest)) i
    obtain ⟨-, kept, -, shrunk, -⟩ := arrive_arrived w (a.work policy quantum i rest)
    have less : ∑ j, (a.work policy quantum i rest).remaining j < ∑ j, a.remaining j := by
      apply Finset.sum_lt_sum
      · intro j _
        by_cases same : j = i
        · rw [same, (work_mine a policy quantum i rest).1]
          exact Nat.sub_le _ _
        · exact (work_others a policy quantum rest same).1.le
      · refine ⟨i, Finset.mem_univ i, ?_⟩
        rw [(work_mine a policy quantum i rest).1]
        omega
    have fewer : (a.work policy quantum i rest).pending.length ≤ s.pending.length := by
      change a.pending.length ≤ _
      rw [pending, line]
      exact (List.dropWhile_sublist _).length_le
    have still := (List.dropWhile_sublist (fun j => decide (w.arrival j ≤
      (a.work policy quantum i rest).now)) (l := (a.work policy quantum i rest).pending)).length_le
    unfold left
    rw [same, remaining', pending', kept, shrunk]
    rw [remaining, work] at less
    omega

theorem schedule_ends (w : Workload n) (policy : Policy) (positive : 0 < quantum) :
    ∃ t, w.Leads policy quantum w.start t ∧ Kept w t ∧ ¬ t.Going := by
  refine ends_of_variant left (fun s kept going => ⟨_, rfl, ?_, ?_⟩) (start_kept w)
  · exact kept.pass going positive
  · exact kept.head.decreases going positive

/-- The end of a simulation: all jobs done, all service given. -/
structure Ended (w : Workload n) (t : State n) : Prop extends Recorded w t where
  drained : t.pending = []
  finished : ∀ i, t.remaining i = 0
  stopped : ∀ i, ∃ d ≤ t.now, t.done i = some d

theorem Kept.ended (kept : Kept w t) (stopped : ¬ t.Going) : Ended w t := by
  obtain ⟨none, nobody⟩ : t.pending = [] ∧ t.ready = [] := by
    simpa [State.Going] using stopped
  have gone (i : Fin n) := kept.head.sound.stopped i (by simp [none]) (by simp [nobody]) (by simp)
  exact ⟨kept.recorded, none, fun i => (gone i).1, fun i => (gone i).2⟩

theorem Ended.whole (ended : Ended w t) (i : Fin n) : served t.trace i = w.service i := by
  have account := ended.served i
  rw [ended.finished i] at account
  exact account

/-- `first` and `done` of a job, read off its slices. -/
theorem Ended.endpoints (ended : Ended w t) (proper : 0 < w.service i) :
    ∃ x y, (own t.trace i).head? = some x ∧ (own t.trace i).getLast? = some y ∧
      t.first i = some x.start ∧ t.done i = some y.stop ∧ w.arrival i ≤ x.start ∧ x.start ≤ y.stop := by
  have first := ended.first i proper
  have done := ended.done i proper
  rw [if_pos (ended.finished i)] at done
  have whole := ended.whole i
  cases slices : own t.trace i with
  | nil =>
    rw [Scheduling.served, slices] at whole
    exact absurd whole proper.ne
  | cons x rest =>
    have last : (x :: rest).getLast? = some ((x :: rest).getLast nofun) := List.getLast?_eq_some_getLast _
    rw [slices, List.head?_cons] at first
    rw [slices, last] at done
    have among (z : Slice (Fin n)) (member : z ∈ x :: rest) : z ∈ t.trace ∧ z.job = i := by
      rw [← slices] at member
      exact mem_own.mp member
    obtain ⟨here, mine⟩ := among x List.mem_cons_self
    refine ⟨x, _, rfl, last, first, done, mine ▸ ended.arrived x here, ?_⟩
    have sorted : (x :: rest).Pairwise fun x y => x.stop ≤ y.start := by
      rw [← slices]
      exact ended.ordered.sublist List.filter_sublist
    have mono := ended.positive x here
    rcases List.mem_cons.mp (List.getLast_mem (l := x :: rest) nofun) with same | later
    · rw [same]
      exact mono.le
    · have after := (List.pairwise_cons.mp sorted).1 _ later
      have mono' := ended.positive _ (among _ (List.mem_cons_of_mem x later)).1
      omega

theorem Ended.bounds (ended : Ended w t) (i : Fin n) :
    ∃ f d, t.first i = some f ∧ t.done i = some d ∧ w.arrival i ≤ f ∧ f ≤ d := by
  rcases Nat.eq_zero_or_pos (w.service i) with zero | proper
  · rcases ended.empty i zero with coming | ⟨first, done⟩
    · rw [ended.drained] at coming
      cases coming
    · exact ⟨_, _, first, done, le_rfl, le_rfl⟩
  · obtain ⟨x, y, -, -, first, done, after, before⟩ := ended.endpoints proper
    exact ⟨_, _, first, done, after, before⟩

/-- Response and turnaround as `simulate` returns them. -/
def State.metrics (w : Workload n) (t : State n) (i : Fin n) : Metrics :=
  ⟨(t.first i).getD 0 - w.arrival i, (t.done i).getD 0 - w.arrival i⟩

theorem Ended.report (ended : Ended w t) : w.report t =
    .ok ⟨t.metrics w, t.trace.map w.label⟩ := by
  have total : (t.trace.map fun x => (x.stop : Int) - x.start).sum = ∑ i, (w.service i : Int) := by
    have lengths : (t.trace.map fun x => (x.stop : Int) - x.start) =
        (t.trace.map Slice.length).map Nat.cast := by
      rw [List.map_map]
      apply List.map_congr_left
      intro x member
      exact (Int.ofNat_sub (ended.positive x member).le).symm
    have sum := served_total t.trace
    rw [Finset.sum_congr rfl fun i _ => ended.whole i] at sum
    rw [lengths, ← Nat.cast_list_sum, sum, Nat.cast_sum]
  have found : ¬ ∃ i, t.first i = none ∨ t.done i = none := by
    rintro ⟨i, missing⟩
    obtain ⟨f, d, first, done, -⟩ := ended.bounds i
    simp [first, done] at missing
  have nonnegative : ∀ i, 0 ≤ (t.metrics w i).response ∧
      (t.metrics w i).response ≤ (t.metrics w i).turnaround := by
    intro i
    obtain ⟨f, d, first, done, after, before⟩ := ended.bounds i
    simp only [State.metrics, first, done, Option.getD_some]
    omega
  unfold Workload.report
  rw [if_neg (not_not.mpr total), if_neg found]
  exact if_pos nonnegative

/-! ### The value of `simulate` -/

/-- Whatever is returned was made from the end of the loop. -/
theorem returns_ended (positive : 0 < quantum) (returns : w.Returns policy quantum r) :
    ∃ t, w.Leads policy quantum w.start t ∧ Ended w t ∧ r = ⟨t.metrics w, t.trace.map w.label⟩ := by
  obtain ⟨t, leads, made⟩ := returns
  obtain ⟨t', leads', kept, stopped⟩ := schedule_ends w policy positive
  cases leads.unique leads'
  have ended := kept.ended stopped
  exact ⟨t, leads, ended, Except.ok.inj (made.symm.trans ended.report)⟩

theorem leads_returns (positive : 0 < quantum) (leads : w.Leads policy quantum w.start t) :
    Ended w t ∧ w.Returns policy quantum ⟨t.metrics w, t.trace.map w.label⟩ := by
  obtain ⟨t', leads', kept, stopped⟩ := schedule_ends w policy positive
  cases leads.unique leads'
  have ended := kept.ended stopped
  exact ⟨ended, t, leads, ended.report⟩

theorem own_label (w : Workload n) (trace : List (Slice (Fin n))) (i : Fin n) :
    own (trace.map w.label) (w.name i) = (own trace i).map w.label := by
  unfold own
  rw [List.filter_map]
  congr 1
  apply List.filter_congr
  intro x _
  rw [Bool.eq_iff_iff]
  simp only [Function.comp_apply, decide_eq_true_eq]
  exact w.distinct.eq_iff

theorem served_label (w : Workload n) (trace : List (Slice (Fin n))) (i : Fin n) :
    served (trace.map w.label) (w.name i) = served trace i := by
  unfold served
  rw [own_label, List.map_map]
  rfl

/-- A schedule of the workload: whole, without overlap, and with nobody left
waiting while nothing runs. -/
structure Valid (w : Workload n) (r : Report n) : Prop where
  known : ∀ x ∈ r.trace, ∃ i, x.job = w.name i
  positive : ∀ x ∈ r.trace, x.start < x.stop
  ordered : r.trace.Pairwise fun x y => x.stop ≤ y.start
  complete : ∀ i, served r.trace (w.name i) = w.service i
  arrived : ∀ i, ∀ x ∈ own r.trace (w.name i), w.arrival i ≤ x.start
  empty : ∀ i, w.service i = 0 → r.result i = ⟨0, 0⟩
  metrics : ∀ i, 0 < w.service i → ∃ x y, (own r.trace (w.name i)).head? = some x ∧
    (own r.trace (w.name i)).getLast? = some y ∧
    r.result i = ⟨x.start - w.arrival i, y.stop - w.arrival i⟩
  conserving : ∀ τ, (∃ x ∈ r.trace, τ < x.start) → (∀ x ∈ r.trace, τ < x.start ∨ x.stop ≤ τ) →
    ∀ i, w.arrival i ≤ τ → w.arrival i + (r.result i).turnaround ≤ τ

theorem Ended.valid (ended : Ended w t) : Valid w ⟨t.metrics w, t.trace.map w.label⟩ := by
  refine ⟨?_, ?_, ?_, fun i => ?_, fun i x member => ?_, fun i zero => ?_, fun i proper => ?_, ?_⟩
  · intro x member
    obtain ⟨y, -, rfl⟩ := List.mem_map.mp member
    exact ⟨y.job, rfl⟩
  · intro x member
    obtain ⟨y, inside, rfl⟩ := List.mem_map.mp member
    exact ended.positive y inside
  · exact List.pairwise_map.mpr ended.ordered
  · rw [served_label, ended.whole]
  · rw [own_label] at member
    obtain ⟨y, among, rfl⟩ := List.mem_map.mp member
    obtain ⟨inside, rfl⟩ := mem_own.mp among
    exact ended.arrived y inside
  · rcases ended.empty i zero with coming | ⟨first, done⟩
    · rw [ended.drained] at coming
      cases coming
    · simp [State.metrics, first, done]
  · obtain ⟨x, y, head, last, first, done, -⟩ := ended.endpoints proper
    refine ⟨w.label x, w.label y, ?_, ?_, ?_⟩
    · rw [own_label, List.head?_map, head]
      rfl
    · rw [own_label, List.getLast?_map, last]
      rfl
    · simp [State.metrics, first, done, Workload.label]
  · rintro τ ⟨x, member, before⟩ gap i here
    obtain ⟨y, inside, rfl⟩ := List.mem_map.mp member
    have early : τ < t.now := by
      have running := ended.positive y inside
      have past := ended.past y inside
      change τ < y.start at before
      omega
    obtain ⟨d, past, done⟩ := ended.idle τ early
      (fun z inside => gap (w.label z) (List.mem_map_of_mem inside)) i here
    simp only [State.metrics, done, Option.getD_some]
    omega

theorem validate_accepts (jobs : Fin n → Job) (named : Function.Injective fun i => (jobs i).name)
    (proper : ∀ i, 0 ≤ (jobs i).arrival ∧ 0 ≤ (jobs i).service) :
    ∃ w, validate jobs = .ok w ∧ ∀ i, w.name i = (jobs i).name ∧
      (w.arrival i : Int) = (jobs i).arrival ∧ (w.service i : Int) = (jobs i).service := by
  have none : ¬ ∃ i, (jobs i).arrival < 0 ∨ (jobs i).service < 0 := by
    rintro ⟨i, negative⟩
    have both := proper i
    omega
  unfold validate
  rw [dif_pos named, if_neg none]
  refine ⟨_, rfl, fun i => ⟨rfl, ?_, ?_⟩⟩
  · exact Int.toNat_of_nonneg (proper i).1
  · exact Int.toNat_of_nonneg (proper i).2

theorem Returns.simulate (accepted : validate jobs = .ok w) (positive : 0 < quantum)
    (returns : w.Returns policy quantum r) :
    ∃ bound, ∀ fuel ≥ bound, simulate fuel jobs policy quantum = some (.ok r) := by
  obtain ⟨t, leads, made⟩ := returns
  obtain ⟨bound, ran⟩ := leads.loop
  refine ⟨bound, fun fuel more => ?_⟩
  have enough := loop_more ran more
  have valid : ¬ (quantum : Int) ≤ 0 := by omega
  unfold Scheduling.simulate
  rw [if_neg valid, accepted]
  simp only [Int.toNat_natCast, enough, Option.map_some]
  exact congrArg some made

/-- `simulate` ends, and this is its value. -/
def Simulates (jobs : Fin n → Job) (policy : Policy) (quantum : Nat) (r : Report n) : Prop :=
  ∃ bound, ∀ fuel ≥ bound, simulate fuel jobs policy quantum = some (.ok r)

/-- For every list of uniquely named jobs with no negative time, every policy
and every positive quantum, `simulate` returns, and what it returns is a valid
schedule that never idles while a job is there. -/
theorem simulate_valid (jobs : Fin n → Job) (policy : Policy) (quantum : Nat)
    (named : Function.Injective fun i => (jobs i).name)
    (proper : ∀ i, 0 ≤ (jobs i).arrival ∧ 0 ≤ (jobs i).service) (positive : 0 < quantum) :
    ∃ w r, (∀ i, w.name i = (jobs i).name ∧ (w.arrival i : Int) = (jobs i).arrival ∧
        (w.service i : Int) = (jobs i).service) ∧
      (∃ bound, ∀ fuel ≥ bound, simulate fuel jobs policy quantum = some (.ok r)) ∧ Valid w r := by
  obtain ⟨w, accepted, same⟩ := validate_accepts jobs named proper
  obtain ⟨t, leads, -⟩ := schedule_ends w policy positive
  obtain ⟨ended, returns⟩ := leads_returns positive leads
  exact ⟨w, _, same, Returns.simulate accepted positive returns, ended.valid⟩

/-- The course example of lesson 11. -/
def course : Fin 3 → Job := ![⟨"A", 0, 6⟩, ⟨"B", 0, 2⟩, ⟨"C", 0, 1⟩]

/-- Its workload. -/
def lesson : Workload 3 where
  name := !["A", "B", "C"]
  arrival := ![0, 0, 0]
  service := ![6, 2, 1]
  distinct := by decide

theorem course_accepted : (Function.Injective fun i => (course i).name) ∧
    ∀ i, 0 ≤ (course i).arrival ∧ 0 ≤ (course i).service := by
  decide

theorem simulate_valid_course : ∃ w r, (∀ i, w.name i = (course i).name ∧
    (w.arrival i : Int) = (course i).arrival ∧ (w.service i : Int) = (course i).service) ∧
    (∃ bound, ∀ fuel ≥ bound, simulate fuel course .rr 2 = some (.ok r)) ∧ Valid w r :=
  simulate_valid course .rr 2 course_accepted.1 course_accepted.2 (by decide)

end Neonos.Scheduling
