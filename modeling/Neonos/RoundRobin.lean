import Neonos.SchedulingTrace

/-! Round robin is fair slice by slice: between two slices of one job every
other unfinished job that is there gets exactly one. -/
namespace Neonos.Scheduling
open StableChoice WhileLoop SortedLine

variable {w : Workload n} {policy : Policy} {quantum : Nat} {s t : State n} {i j : Fin n}

/-- `line` holds, once each, the jobs that have arrived when slice `x` ends and
still have work to do then, without the job of `x` itself. `pre` is the trace before `x`. -/
structure InLine (w : Workload n) (pre : List (Slice (Fin n))) (x : Slice (Fin n)) (line : List (Fin n)) :
    Prop where
  distinct : line.Nodup
  members : ∀ j, j ∈ line ↔ j ≠ x.job ∧ w.arrival j ≤ x.stop ∧ served (pre ++ [x]) j < w.service j

/-- What the ready list owes the job of slice `x`, which has not run since: those
in line ran or will run before it. -/
structure Owed (w : Workload n) (quantum : Nat) (s : State n) (pre : List (Slice (Fin n)))
    (x : Slice (Fin n)) (mid : List (Slice (Fin n))) : Prop where
  waits : ∃ waiting tail, s.ready = waiting ++ x.job :: tail ∧ InLine w pre x (mid.map Slice.job ++ waiting)
  now : s.now = x.stop + (mid.map Slice.length).sum
  short : ∀ y ∈ mid, y.length ≤ quantum

/-- What was served between slice `x` and the next slice `y` of its job. -/
structure Round (w : Workload n) (quantum : Nat) (pre : List (Slice (Fin n)))
    (x : Slice (Fin n)) (mid : List (Slice (Fin n))) (y : Slice (Fin n)) : Prop where
  served : InLine w pre x (mid.map Slice.job)
  start : y.start = x.stop + (mid.map Slice.length).sum
  short : ∀ y ∈ mid, y.length ≤ quantum

/-- Round robin so far. -/
structure Fair (w : Workload n) (quantum : Nat) (s : State n) : Prop where
  lasts : ∀ pre x post, s.trace = pre ++ x :: post →
    x.length = min quantum (w.service x.job - served pre x.job)
  owed : ∀ pre x mid, s.trace = pre ++ x :: mid → (∀ y ∈ mid, y.job ≠ x.job) →
    served (pre ++ [x]) x.job < w.service x.job → Owed w quantum s pre x mid
  rounds : ∀ pre x mid y post, s.trace = pre ++ x :: (mid ++ y :: post) → y.job = x.job →
    (∀ z ∈ mid, z.job ≠ x.job) → Round w quantum pre x mid y

theorem start_fair (w : Workload n) (quantum : Nat) : Fair w quantum w.start := by
  have empty : w.start.trace = [] := rfl
  refine ⟨?_, ?_, ?_⟩
  · intro pre x post split
    rw [empty] at split
    simp at split
  · intro pre x mid split
    rw [empty] at split
    simp at split
  · intro pre x mid y post split
    rw [empty] at split
    simp at split

theorem snoc_split {trace pre post : List α} {x y : α} (split : trace ++ [y] = pre ++ x :: post) :
    (post = [] ∧ pre = trace ∧ x = y) ∨ ∃ post', post = post' ++ [y] ∧ trace = pre ++ x :: post' := by
  rcases List.eq_nil_or_concat post with rfl | ⟨post', z, rfl⟩
  · obtain ⟨rfl, last⟩ := List.append_inj' split rfl
    exact .inl ⟨rfl, rfl, (List.singleton_inj.mp last).symm⟩
  · rw [List.concat_eq_append, ← List.cons_append, ← List.append_assoc] at split
    obtain ⟨rfl, last⟩ := List.append_inj' split rfl
    rw [List.singleton_inj.mp last]
    exact .inr ⟨post', List.concat_eq_append, rfl⟩

/-- Whoever is there with work left is in a ready list that is not empty. -/
theorem AtHead.ready_iff (head : AtHead w s) (some : s.ready ≠ []) :
    j ∈ s.ready ↔ w.arrival j ≤ s.now ∧ 0 < s.remaining j := by
  constructor
  · intro member
    obtain ⟨here, left, -⟩ := head.sound.waiting j (.inl member)
    exact ⟨here, left⟩
  · rintro ⟨here, left⟩
    by_contra absent
    have away : j ∉ s.pending := fun member => by
      have late := head.settled some j member
      omega
    exact left.ne' (head.sound.stopped j away absent nofun).1

/-- The queue right after a slice: behind the arrivals stands its job, if
unfinished, and everybody else who is there stands before it. -/
theorem Serves.line (serves : Serves w policy quantum s a t i rest) (head : AtHead w t)
    (recorded : Recorded w t) (more : t.remaining i ≠ 0) :
    ∃ waiting, t.ready = waiting ++ [i] ∧ InLine w s.trace ⟨i, a.now, t.now⟩ waiting := by
  have queue := serves.ready
  rw [if_neg more] at queue
  generalize rest ++ ((a.pending.filter fun j => w.arrival j ≤ t.now).filter fun j =>
    w.service j ≠ 0) = waiting at queue
  have distinct := head.sound.distinct
  rw [queue] at distinct
  obtain ⟨nodup, -, apart⟩ := List.nodup_append.mp distinct
  refine ⟨waiting, queue, nodup, fun j => ?_⟩
  have whole := recorded.served j
  rw [serves.trace] at whole
  have among : j ∈ t.ready ↔ w.arrival j ≤ t.now ∧ 0 < t.remaining j := by
    apply head.ready_iff
    rw [queue]
    simp
  rw [queue, List.mem_append, List.mem_singleton] at among
  have notLast : j ∈ waiting → j ≠ i := fun member => apart j member i (by simp)
  constructor
  · intro member
    obtain ⟨here, left⟩ := among.mp (.inl member)
    exact ⟨notLast member, here, by omega⟩
  · rintro ⟨different, here, left⟩
    exact (among.mpr ⟨here, by omega⟩).resolve_right different

/-- A slice that the job of `x` waited for moves it up by one place. -/
theorem Owed.serves (owes : Owed w quantum s pre x mid) (serves : Serves w .rr quantum s a t i rest)
    (other : i ≠ x.job) : Owed w quantum t pre x (mid ++ [⟨i, a.now, t.now⟩]) := by
  obtain ⟨⟨waiting, tail, queue, line⟩, now, short⟩ := owes
  have some : s.ready ≠ [] := by simp [queue]
  obtain ⟨same, queue'⟩ := serves.same some
  have first : a.ready = i :: rest := (select_some serves.chosen).2.2.1 nofun
  rw [first, queue] at queue'
  have slice : (⟨i, a.now, t.now⟩ : Slice (Fin n)).length = min (a.remaining i) quantum := by
    rw [Slice.length, serves.now]
    exact Nat.add_sub_cancel_left _ _
  have ended : t.now = a.now + min (a.remaining i) quantum := serves.now
  cases waiting with
  | nil =>
    rw [List.nil_append, List.cons.injEq] at queue'
    exact absurd queue'.1 other
  | cons k waiting =>
    rw [List.cons_append, List.cons.injEq] at queue'
    obtain ⟨rfl, rfl⟩ := queue'
    obtain ⟨tail', queue''⟩ : ∃ tail', t.ready = waiting ++ x.job :: tail' :=
      ⟨_, by rw [serves.ready, List.append_assoc, List.append_assoc, List.cons_append]⟩
    refine ⟨⟨waiting, tail', queue'', ?_⟩, ?_, fun y member => ?_⟩
    · simpa using line
    · rw [List.map_append, List.sum_append, List.map_singleton, List.sum_singleton, slice, ended, same, now]
      omega
    · rcases List.mem_append.mp member with before | last
      · exact short y before
      · rw [List.mem_singleton.mp last, slice]
        exact min_le_right _ _

/-- When its own turn comes, everybody in line has been served. -/
theorem Owed.round (owes : Owed w quantum s pre x mid) (serves : Serves w .rr quantum s a t i rest)
    (own : i = x.job) : Round w quantum pre x mid ⟨i, a.now, t.now⟩ := by
  obtain ⟨⟨waiting, tail, queue, line⟩, now, short⟩ := owes
  have some : s.ready ≠ [] := by simp [queue]
  obtain ⟨same, queue'⟩ := serves.same some
  have first : a.ready = i :: rest := (select_some serves.chosen).2.2.1 nofun
  rw [first, queue] at queue'
  cases waiting with
  | nil =>
    rw [List.append_nil] at line
    exact ⟨line, same.trans now, short⟩
  | cons k waiting =>
    rw [List.cons_append, List.cons.injEq] at queue'
    have member : k ∈ mid.map Slice.job ++ k :: waiting := by simp
    exact absurd (queue'.1.symm.trans own) ((line.members k).mp member).1

theorem Fair.serves (fair : Fair w quantum s) (kept : Kept w s)
    (serves : Serves w .rr quantum s a t i rest) (after : Kept w t) : Fair w quantum t := by
  obtain ⟨lasts, owed, rounds⟩ := fair
  have mine : i ∈ a.ready := (select_some serves.chosen).1.mem_iff.mpr (by simp)
  have left := (serves.sound.waiting i (.inl mine)).2.1
  have account := kept.recorded.served i
  rw [serves.remaining] at left
  refine ⟨fun pre x post split => ?_, fun pre x mid split others unfinished => ?_,
    fun pre x mid y post split own others => ?_⟩
  · rw [serves.trace] at split
    rcases snoc_split split with ⟨-, rfl, rfl⟩ | ⟨post', -, split'⟩
    · have duration : a.duration .rr quantum i = min (s.remaining i) quantum := by
        rw [← serves.remaining]
        rfl
      rw [Slice.length, serves.now, duration]
      change a.now + min (s.remaining i) quantum - a.now = min quantum (w.service i - served s.trace i)
      omega
    · exact lasts pre x post' split'
  · have whole := serves.trace
    rw [whole] at split
    rcases snoc_split split with ⟨rfl, rfl, rfl⟩ | ⟨mid', rfl, split'⟩
    · have more : t.remaining i ≠ 0 := by
        have account' := after.recorded.served i
        rw [whole] at account'
        change served (s.trace ++ [⟨i, a.now, t.now⟩]) i < w.service i at unfinished
        omega
      obtain ⟨waiting, queue, line⟩ := serves.line after.head after.recorded more
      exact ⟨⟨waiting, [], queue, line⟩, rfl, by simp⟩
    · have different : i ≠ x.job := others ⟨i, a.now, t.now⟩ (by simp)
      have owes := owed pre x mid' split' (fun y member => others y (by simp [member])) unfinished
      exact owes.serves serves different
  · rw [serves.trace] at split
    rcases snoc_split split with ⟨none, -⟩ | ⟨post', split', whole⟩
    · simp at none
    · rcases snoc_split split'.symm with ⟨rfl, rfl, rfl⟩ | ⟨post'', rfl, same⟩
      · change i = x.job at own
        have since : served mid i = 0 := served_none (own ▸ others)
        have unfinished : served (pre ++ [x]) x.job < w.service x.job := by
          rw [whole, ← List.singleton_append, ← List.append_assoc, served_append, since] at account
          rw [← own]
          omega
        exact (owed pre x mid whole others unfinished).round serves own
      · exact rounds pre x mid y post'' (same ▸ whole) own others

theorem Fair.pass (fair : Fair w quantum s) (kept : Kept w s) (going : s.Going) (positive : 0 < quantum) :
    Fair w quantum (w.pass .rr quantum s) := by
  have after : Kept w (w.pass .rr quantum s) := kept.pass going positive
  rcases kept.head.turn going .rr quantum with idles | ⟨a, i, rest, serves⟩
  · obtain ⟨lasts, owed, rounds⟩ := fair
    have trace := idles.trace
    refine ⟨trace ▸ lasts, fun pre x mid split others unfinished => ?_, trace ▸ rounds⟩
    obtain ⟨⟨waiting, tail, queue, -⟩, -, -⟩ := owed pre x mid (trace ▸ split) others unfinished
    rw [idles.before] at queue
    simp at queue
  · exact fair.serves kept serves after

theorem leads_fair (positive : 0 < quantum) (leads : w.Leads .rr quantum w.start t) :
    Fair w quantum t := by
  have start : Kept w w.start ∧ Fair w quantum w.start := ⟨start_kept w, start_fair w quantum⟩
  obtain ⟨t', same, ⟨-, fair⟩, -⟩ := leads.invariant
    (fun s (kept : Kept w s ∧ Fair w quantum s) going =>
      ⟨_, rfl, kept.1.pass going positive, kept.2.pass kept.1 going positive⟩) start
  rw [Except.ok.inj same]
  exact fair

theorem own_length [DecidableEq ι] (trace : List (Slice ι)) (k : ι) :
    (own trace k).length = (trace.map Slice.job).count k := by
  rw [own, ← List.countP_eq_length_filter, List.count, List.countP_map]
  apply List.countP_congr
  intro x _
  simp

/-- Between two slices of `i` stand at most the `n - 1` other jobs. -/
theorem Round.waits (round : Round w quantum pre x mid y) : y.start ≤ x.stop + (n - 1) * quantum := by
  have bound : (mid.map Slice.length).sum ≤ (mid.map Slice.length).length • quantum := by
    apply List.sum_le_card_nsmul
    intro length member
    obtain ⟨z, inside, rfl⟩ := List.mem_map.mp member
    exact round.short z inside
  have apart : (x.job :: mid.map Slice.job).Nodup := by
    refine List.nodup_cons.mpr ⟨fun member => ?_, round.served.distinct⟩
    exact ((round.served.members x.job).mp member).1 rfl
  have few := apart.length_le_card
  rw [List.length_cons, List.length_map, Fintype.card_fin] at few
  have product : mid.length * quantum ≤ (n - 1) * quantum := Nat.mul_le_mul_right _ (by omega)
  rw [List.length_map, Nat.nsmul_eq_mul] at bound
  rw [round.start]
  omega

/-- Round robin is fair slice by slice. Each slice lasts as long as the quantum
and the job's work allow, and between two consecutive slices of a job every other
job that is there and unfinished when the first one ends has exactly one slice,
anybody else none; so the wait is at most `n - 1` quanta. -/
theorem round_robin_fair (w : Workload n) (quantum : Nat) (positive : 0 < quantum) :
    ∃ r, w.Returns .rr quantum r ∧
      (∀ i pre x post, r.trace = pre ++ x :: post → x.job = w.name i →
        x.length = min quantum (w.service i - served pre (w.name i))) ∧
      ∀ i pre x mid y post, r.trace = pre ++ x :: (mid ++ y :: post) → x.job = w.name i →
        y.job = w.name i → (∀ z ∈ mid, z.job ≠ w.name i) →
          (∀ j, j ≠ i → (own mid (w.name j)).length =
            if w.arrival j ≤ x.stop ∧ served (pre ++ [x]) (w.name j) < w.service j then 1 else 0) ∧
          y.start ≤ x.stop + (n - 1) * quantum := by
  obtain ⟨t, leads, -⟩ := schedule_ends w .rr positive
  obtain ⟨-, returns⟩ := leads_returns positive leads
  have fair := leads_fair positive leads
  refine ⟨_, returns, ?_, ?_⟩
  · intro i pre x post split mine
    obtain ⟨pre, rest, whole, rfl, tail⟩ := List.map_eq_append_iff.mp split
    obtain ⟨x, post, rfl, rfl, rfl⟩ := List.map_eq_cons_iff.mp tail
    obtain rfl : x.job = i := w.distinct mine
    rw [served_label]
    exact fair.lasts pre x post whole
  · intro i pre x mid y post split mine own' others
    obtain ⟨pre, rest, whole, rfl, tail⟩ := List.map_eq_append_iff.mp split
    obtain ⟨x, rest', rfl, rfl, tail'⟩ := List.map_eq_cons_iff.mp tail
    obtain ⟨mid, rest'', rfl, rfl, tail''⟩ := List.map_eq_append_iff.mp tail'
    obtain ⟨y, post, rfl, rfl, rfl⟩ := List.map_eq_cons_iff.mp tail''
    obtain rfl : x.job = i := w.distinct mine
    have round := fair.rounds pre x mid y post whole (w.distinct own') fun z member =>
      fun same => others (w.label z) (List.mem_map_of_mem member) (congrArg w.name same)
    refine ⟨fun j different => ?_, round.waits⟩
    have labelled : pre.map w.label ++ [w.label x] = (pre ++ [x]).map w.label := by simp
    rw [labelled, served_label, own_label, List.length_map, own_length, round.served.distinct.count]
    congr 1
    rw [round.served.members j]
    exact eq_iff_iff.mpr (and_iff_right different)

theorem round_robin_fair_lesson : ∃ r, lesson.Returns .rr 2 r ∧
    ∀ i pre x post, r.trace = pre ++ x :: post → x.job = lesson.name i →
      x.length = min 2 (lesson.service i - served pre (lesson.name i)) := by
  obtain ⟨r, returns, lasts, -⟩ := round_robin_fair lesson 2 (by decide)
  exact ⟨r, returns, lasts⟩

end Neonos.Scheduling
