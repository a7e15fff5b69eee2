import Neonos.Model.Scheduling
import Neonos.SortedLine

/-! What one pass of the scheduling simulator does: each of its parts once, on
every field, and the invariant that ties `pending`, `ready`, `remaining` and
`done` together. -/
namespace Neonos.Scheduling
open StableChoice WhileLoop SortedLine

variable {w : Workload n} {policy : Policy} {quantum : Nat} {s t : State n} {i j : Fin n}

/-! ### `arrive` -/

/-- The jobs that `arrive` takes off `pending`. -/
def Workload.came (w : Workload n) (s : State n) : List (Fin n) :=
  s.pending.takeWhile fun i => w.arrival i ≤ s.now

/-- What `arrive` changes. -/
structure Arrived (w : Workload n) (s t : State n) : Prop where
  now : t.now = s.now
  remaining : t.remaining = s.remaining
  trace : t.trace = s.trace
  pending : t.pending = s.pending.dropWhile fun i => w.arrival i ≤ s.now
  ready : t.ready = s.ready ++ (w.came s).filter fun i => w.service i ≠ 0
  first : ∀ i, t.first i = if i ∈ w.came s ∧ w.service i = 0 then some (w.arrival i) else s.first i
  done : ∀ i, t.done i = if i ∈ w.came s ∧ w.service i = 0 then some (w.arrival i) else s.done i

section receive
variable (rest : List (Fin n))

@[simp] theorem receive_now : (w.receive s i rest).now = s.now := by
  unfold Workload.receive
  split <;> rfl

@[simp] theorem receive_remaining : (w.receive s i rest).remaining = s.remaining := by
  unfold Workload.receive
  split <;> rfl

@[simp] theorem receive_trace : (w.receive s i rest).trace = s.trace := by
  unfold Workload.receive
  split <;> rfl

@[simp] theorem receive_pending : (w.receive s i rest).pending = rest := by
  unfold Workload.receive
  split <;> rfl

theorem receive_ready :
    (w.receive s i rest).ready = s.ready ++ [i].filter fun i => w.service i ≠ 0 := by
  unfold Workload.receive
  by_cases zero : w.service i = 0 <;> simp [zero]

theorem receive_first (j : Fin n) : (w.receive s i rest).first j =
    if j = i ∧ w.service i = 0 then some (w.arrival i) else s.first j := by
  unfold Workload.receive
  by_cases zero : w.service i = 0 <;> simp [zero, Function.update_apply]

theorem receive_done (j : Fin n) : (w.receive s i rest).done j =
    if j = i ∧ w.service i = 0 then some (w.arrival i) else s.done j := by
  unfold Workload.receive
  by_cases zero : w.service i = 0 <;> simp [zero, Function.update_apply]

end receive

theorem arriveFrom_arrived (line : List (Fin n)) (s : State n) (pending : s.pending = line) :
    Arrived w s (w.arriveFrom line s) := by
  induction line generalizing s with
  | nil =>
    have nobody : w.came s = [] := by simp [Workload.came, pending]
    unfold Workload.arriveFrom
    exact ⟨rfl, rfl, rfl, by simp [pending], by simp [nobody], by simp [nobody], by simp [nobody]⟩
  | cons i line ih =>
    unfold Workload.arriveFrom
    by_cases due : w.arrival i ≤ s.now
    · have came : w.came s = i :: w.came (w.receive s i line) := by
        simp [Workload.came, pending, due]
      obtain ⟨now, remaining, trace, pending', ready, first, done⟩ := ih (w.receive s i line) (by simp)
      rw [if_pos due]
      refine ⟨?_, ?_, ?_, ?_, ?_, fun j => ?_, fun j => ?_⟩
      · rw [now, receive_now]
      · rw [remaining, receive_remaining]
      · rw [trace, receive_trace]
      · rw [pending', pending, receive_pending, receive_now,
          List.dropWhile_cons_of_pos (by simpa using due)]
      · rw [ready, came, receive_ready, List.append_assoc, ← List.filter_append, List.singleton_append]
      · rw [first j, came, receive_first]
        by_cases same : j = i
        · subst same
          by_cases zero : w.service j = 0 <;> simp [zero]
        · simp [same]
      · rw [done j, came, receive_done]
        by_cases same : j = i
        · subst same
          by_cases zero : w.service j = 0 <;> simp [zero]
        · simp [same]
    · have nobody : w.came s = [] := by simp [Workload.came, pending, due]
      rw [if_neg due]
      exact ⟨rfl, rfl, rfl, by simp [pending, due], by simp [nobody], by simp [nobody], by simp [nobody]⟩

theorem arrive_arrived (w : Workload n) (s : State n) : Arrived w s (w.arrive s) :=
  arriveFrom_arrived s.pending s rfl

/-! ### The other parts -/

theorem jump_cases (going : s.Going) : (s.ready ≠ [] ∧ w.jump s = s) ∨ ∃ i rest, s.ready = [] ∧
    s.pending = i :: rest ∧ w.jump s = { s with now := max s.now (w.arrival i) } := by
  unfold Workload.jump
  cases ready : s.ready with
  | cons => exact .inl ⟨nofun, rfl⟩
  | nil =>
    cases pending : s.pending with
    | nil => exact absurd going (by simp [State.Going, ready, pending])
    | cons i rest => exact .inr ⟨i, rest, rfl, rfl, rfl⟩

theorem jump_other (w : Workload n) (s : State n) : (w.jump s).trace = s.trace ∧
    (w.jump s).ready = s.ready ∧ (w.jump s).pending = s.pending ∧
    (w.jump s).remaining = s.remaining := by
  unfold Workload.jump
  split <;> exact ⟨rfl, rfl, rfl, rfl⟩

theorem select_none (none : w.select policy s = none) : s.ready = [] := by
  unfold Workload.select at none
  cases policy with
  | fcfs | rr => simpa using none
  | sjf => exact least_none.mp (by simpa using none)

/-- The selected job is a ready one, and the others keep their order. -/
theorem select_some (chosen : w.select policy s = some (i, rest)) :
    s.ready.Perm (i :: rest) ∧ rest.Sublist s.ready ∧ (policy ≠ .sjf → s.ready = i :: rest) ∧
      (policy = .sjf → Takes (w.shortest s) s.ready i rest) := by
  unfold Workload.select at chosen
  cases policy with
  | fcfs | rr =>
    obtain ⟨first, head, same⟩ := Option.map_eq_some_iff.mp chosen
    cases ready : s.ready with
    | nil => simp [ready] at head
    | cons first' rest' =>
      simp only [ready, List.head?_cons, Option.some.injEq] at head
      subst head
      simp only [ready, List.tail_cons, Prod.mk.injEq] at same
      obtain ⟨rfl, rfl⟩ := same
      exact ⟨.refl _, List.sublist_cons_self _ _, fun _ => rfl, nofun⟩
  | sjf =>
    obtain ⟨first, found, same⟩ := Option.map_eq_some_iff.mp chosen
    simp only [Prod.mk.injEq] at same
    obtain ⟨rfl, rfl⟩ := same
    have takes := least_takes found
    exact ⟨takes.perm, takes.sublist, fun other => absurd rfl other, fun _ => takes⟩

/-- The body of the loop selects nothing or serves one slice. -/
theorem pass_cases (w : Workload n) (policy : Policy) (quantum : Nat) (s : State n) :
    ((w.arrive (w.jump s)).ready = [] ∧ w.pass policy quantum s = w.arrive (w.jump s)) ∨
      ∃ i rest, w.select policy (w.arrive (w.jump s)) = some (i, rest) ∧
        w.pass policy quantum s =
          (w.arrive ((w.arrive (w.jump s)).work policy quantum i rest)).requeue i := by
  unfold Workload.pass
  dsimp only
  cases chosen : w.select policy (w.arrive (w.jump s)) with
  | none => exact .inl ⟨select_none chosen, rfl⟩
  | some found => exact .inr ⟨found.1, found.2, rfl, rfl⟩

theorem duration_le (policy : Policy) (quantum : Nat) (s : State n) (i : Fin n) :
    s.duration policy quantum i ≤ s.remaining i := by
  cases policy <;> simp [State.duration]

theorem duration_pos (policy : Policy) (positive : 0 < quantum) (left : 0 < s.remaining i) :
    0 < s.duration policy quantum i := by
  cases policy <;> simp [State.duration, positive, left]

/-- A slice touches no other job's entries. -/
theorem work_others (s : State n) (policy : Policy) (quantum : Nat) (rest : List (Fin n))
    (different : j ≠ i) : (s.work policy quantum i rest).remaining j = s.remaining j ∧
      (s.work policy quantum i rest).first j = s.first j ∧
      (s.work policy quantum i rest).done j = s.done j := by
  refine ⟨Function.update_of_ne different _ _, Function.update_of_ne different _ _, ?_⟩
  unfold State.work
  dsimp only
  split
  · exact Function.update_of_ne different _ _
  · rfl

theorem work_mine (s : State n) (policy : Policy) (quantum : Nat) (i : Fin n) (rest : List (Fin n)) :
    (s.work policy quantum i rest).remaining i = s.remaining i - s.duration policy quantum i ∧
      (s.work policy quantum i rest).first i = some ((s.first i).getD s.now) ∧
      (s.work policy quantum i rest).done i =
        if s.remaining i - s.duration policy quantum i = 0 then
          some (s.now + s.duration policy quantum i) else s.done i := by
  refine ⟨Function.update_self _ _ _, Function.update_self _ _ _, ?_⟩
  unfold State.work
  dsimp only
  split
  · exact Function.update_self _ _ _
  · rfl

theorem requeue_ready (s : State n) (i : Fin n) :
    (s.requeue i).ready = s.ready ++ if s.remaining i = 0 then [] else [i] := by
  unfold State.requeue
  split <;> simp

theorem requeue_other (s : State n) (i : Fin n) : (s.requeue i).now = s.now ∧
    (s.requeue i).pending = s.pending ∧ (s.requeue i).remaining = s.remaining ∧
    (s.requeue i).first = s.first ∧ (s.requeue i).done = s.done ∧ (s.requeue i).trace = s.trace := by
  unfold State.requeue
  split <;> simp

/-! ### Where every job is -/

/-- Every job is still to come, ready, running or done. `running` is the job of
the present slice while it is in none of the lists. -/
structure Sound (w : Workload n) (running : Option (Fin n)) (s : State n) : Prop where
  sorted : s.pending.Pairwise fun i j => w.joins i < w.joins j
  distinct : s.ready.Nodup
  coming : ∀ i ∈ s.pending, i ∉ s.ready ∧ running ≠ some i ∧ s.remaining i = w.service i ∧
    s.first i = none ∧ s.done i = none
  apart : ∀ i ∈ s.ready, running ≠ some i
  waiting : ∀ i, i ∈ s.ready ∨ running = some i → w.arrival i ≤ s.now ∧ 0 < s.remaining i ∧ s.done i = none
  stopped : ∀ i, i ∉ s.pending → i ∉ s.ready → running ≠ some i →
    s.remaining i = 0 ∧ ∃ d ≤ s.now, s.done i = some d

/-- At the head of the loop nobody still to come is late, and whoever could have
come has come if there is a ready job. -/
structure AtHead (w : Workload n) (s : State n) : Prop where
  sound : Sound w none s
  early : ∀ i ∈ s.pending, s.now ≤ w.arrival i
  settled : s.ready ≠ [] → ∀ i ∈ s.pending, s.now < w.arrival i

theorem joins_injective (w : Workload n) : Function.Injective w.joins := by
  intro i j same
  exact (Prod.mk.inj (toLex.injective same)).2

theorem joins_arrival (before : w.joins i < w.joins j) : w.arrival i ≤ w.arrival j :=
  (Prod.Lex.toLex_lt_toLex.mp before).elim le_of_lt fun tie => tie.1.le

/-- With `pending` sorted, who comes is who is due. -/
theorem came_filter (sorted : s.pending.Pairwise fun i j => w.joins i < w.joins j) :
    w.came s = s.pending.filter fun i => w.arrival i ≤ s.now := by
  apply takeWhile_eq_filter
  refine sorted.imp fun before due => ?_
  simp only [decide_eq_true_eq] at due ⊢
  exact (joins_arrival before).trans due

theorem left_filter (sorted : s.pending.Pairwise fun i j => w.joins i < w.joins j) :
    (s.pending.dropWhile fun i => w.arrival i ≤ s.now) = s.pending.filter fun i => s.now < w.arrival i := by
  rw [dropWhile_eq_filter]
  · apply List.filter_congr
    intro i _
    rw [Bool.eq_iff_iff]
    simp
  · refine sorted.imp fun before due => ?_
    simp only [decide_eq_true_eq] at due ⊢
    exact (joins_arrival before).trans due

theorem Sound.came (sound : Sound w running s) :
    w.came s = s.pending.filter fun i => w.arrival i ≤ s.now := came_filter sound.sorted

theorem Sound.left (sound : Sound w running s) :
    (s.pending.dropWhile fun i => w.arrival i ≤ s.now) = s.pending.filter fun i => s.now < w.arrival i :=
  left_filter sound.sorted

/-- `arrive` with its lists as filters. -/
theorem Sound.arrives (sound : Sound w running s) :
    (∀ i, i ∈ (w.arrive s).pending ↔ i ∈ s.pending ∧ s.now < w.arrival i) ∧
      ∀ i, i ∈ (w.arrive s).ready ↔ i ∈ s.ready ∨ i ∈ s.pending ∧ w.arrival i ≤ s.now ∧ w.service i ≠ 0 := by
  obtain ⟨-, -, -, pending, ready, -, -⟩ := arrive_arrived w s
  refine ⟨fun i => ?_, fun i => ?_⟩
  · rw [pending, sound.left]
    simp
  · rw [ready, sound.came]
    simp only [List.mem_append, List.mem_filter, decide_eq_true_eq]
    tauto

theorem Sound.arrive (sound : Sound w running s) : Sound w running (w.arrive s) := by
  obtain ⟨pending, ready⟩ := sound.arrives
  obtain ⟨now, remaining, -, pending', ready', first, done⟩ := arrive_arrived w s
  rw [sound.came] at ready' first done
  have untouched (i : Fin n) (gone : i ∉ s.pending ∨ s.now < w.arrival i) :
      (w.arrive s).first i = s.first i ∧ (w.arrive s).done i = s.done i := by
    have notCame : ¬ (i ∈ (s.pending.filter fun i => w.arrival i ≤ s.now) ∧ w.service i = 0) := by
      rintro ⟨member, -⟩
      simp only [List.mem_filter, decide_eq_true_eq] at member
      rcases gone with gone | late
      · exact gone member.1
      · omega
    rw [first, done, if_neg notCame, if_neg notCame]
    exact ⟨rfl, rfl⟩
  refine ⟨?_, ?_, fun i member => ?_, fun i member => ?_, fun i place => ?_, fun i away notReady free => ?_⟩
  · rw [pending', sound.left]
    exact sound.sorted.sublist List.filter_sublist
  · rw [ready', List.filter_filter]
    refine List.nodup_append.mpr ⟨sound.distinct, ?_, ?_⟩
    · have nodup : s.pending.Nodup := sound.sorted.imp fun before same => by simp [same] at before
      exact nodup.filter _
    · rintro i member j later rfl
      exact (sound.coming i (List.mem_filter.mp later).1).1 member
  · obtain ⟨member, late⟩ := (pending i).mp member
    obtain ⟨notReady, free, whole, none, none'⟩ := sound.coming i member
    obtain ⟨firstSame, doneSame⟩ := untouched i (.inr late)
    refine ⟨?_, free, ?_, firstSame.trans none, doneSame.trans none'⟩
    · rw [ready]
      rintro (again | ⟨-, due, -⟩)
      · exact notReady again
      · omega
    · rw [remaining]
      exact whole
  · rcases (ready i).mp member with before | ⟨new, -⟩
    · exact sound.apart i before
    · exact (sound.coming i new).2.1
  · rw [now, remaining]
    have old (place : i ∈ s.ready ∨ running = some i) :
        w.arrival i ≤ s.now ∧ 0 < s.remaining i ∧ (w.arrive s).done i = none := by
      obtain ⟨arrived, left, unfinished⟩ := sound.waiting i place
      refine ⟨arrived, left, ?_⟩
      have gone : i ∉ s.pending := fun member => by
        obtain ⟨notReady, free, -⟩ := sound.coming i member
        exact place.elim notReady free
      exact (untouched i (.inl gone)).2.trans unfinished
    rcases place with member | mine
    · rcases (ready i).mp member with before | ⟨new, due, proper⟩
      · exact old (.inl before)
      · obtain ⟨-, -, whole, -, none⟩ := sound.coming i new
        refine ⟨due, whole ▸ Nat.pos_of_ne_zero proper, ?_⟩
        rw [done, if_neg fun zero => proper zero.2]
        exact none
    · exact old (.inr mine)
  · rw [now, remaining]
    by_cases old : i ∈ s.pending
    · have due : w.arrival i ≤ s.now := by
        by_contra late
        exact away ((pending i).mpr ⟨old, not_le.mp late⟩)
      have zero : w.service i = 0 := by
        by_contra proper
        exact notReady ((ready i).mpr (.inr ⟨old, due, proper⟩))
      obtain ⟨-, -, whole, -, -⟩ := sound.coming i old
      refine ⟨whole.trans zero, w.arrival i, due, ?_⟩
      rw [done, if_pos ⟨by simp [old, due], zero⟩]
    · have absent : i ∉ s.ready := fun member => notReady ((ready i).mpr (.inl member))
      rw [(untouched i (.inl old)).2]
      exact sound.stopped i old absent free

/-- After `arrive` everybody still to come is later than now. -/
theorem Sound.arrive_early (sound : Sound w running s) :
    ∀ i ∈ (w.arrive s).pending, (w.arrive s).now < w.arrival i := by
  intro i member
  rw [(arrive_arrived w s).now]
  exact ((sound.arrives.1 i).mp member).2

/-- Whether the job of a slice is still unfinished after it. -/
def unfinished (s : State n) (i : Fin n) : Option (Fin n) := if s.remaining i = 0 then none else some i

theorem unfinished_ne (different : i ≠ j) : unfinished s i ≠ some j := by
  unfold unfinished
  split
  · nofun
  · simpa using different

theorem unfinished_some : unfinished s i = some j ↔ j = i ∧ s.remaining i ≠ 0 := by
  unfold unfinished
  split <;> rename_i left <;> simp [left, eq_comm]

theorem Sound.work (sound : Sound w none s) (chosen : w.select policy s = some (i, rest)) :
    Sound w (unfinished (s.work policy quantum i rest) i) (s.work policy quantum i rest) := by
  obtain ⟨perm, sub, -, -⟩ := select_some chosen
  obtain ⟨fresh, nodup⟩ := List.nodup_cons.mp (perm.nodup_iff.mp sound.distinct)
  have mine : i ∈ s.ready := perm.mem_iff.mpr (by simp)
  have later : s.now ≤ (s.work policy quantum i rest).now := Nat.le_add_right _ _
  obtain ⟨arrived, left, notDone⟩ := sound.waiting i (.inl mine)
  refine ⟨sound.sorted, nodup, fun j member => ?_, fun j member => ?_, fun j place => ?_,
    fun j away notReady free => ?_⟩
  · obtain ⟨notReady, -, whole, none, none'⟩ := sound.coming j member
    have different : j ≠ i := by
      rintro rfl
      exact notReady mine
    obtain ⟨remaining, first, done⟩ := work_others s policy quantum rest different
    exact ⟨fun again => notReady (sub.subset again), unfinished_ne different.symm, remaining.trans whole,
      first.trans none, done.trans none'⟩
  · apply unfinished_ne
    rintro rfl
    exact fresh member
  · rcases place with member | running
    · have different : j ≠ i := by
        rintro rfl
        exact fresh member
      obtain ⟨remaining, -, done⟩ := work_others s policy quantum rest different
      obtain ⟨arrived, left, none⟩ := sound.waiting j (.inl (sub.subset member))
      exact ⟨arrived.trans later, remaining ▸ left, done.trans none⟩
    · obtain ⟨rfl, more⟩ := unfinished_some.mp running
      refine ⟨arrived.trans later, Nat.pos_of_ne_zero more, ?_⟩
      have unended : s.remaining j - s.duration policy quantum j ≠ 0 := by
        simpa [State.work] using more
      exact (congrFun (if_neg unended) j).trans notDone
  · by_cases same : j = i
    · subst same
      have ended : s.remaining j - s.duration policy quantum j = 0 := by
        by_contra more
        exact free (unfinished_some.mpr ⟨rfl, by simpa [State.work] using more⟩)
      refine ⟨by simpa [State.work] using ended, _, le_rfl, ?_⟩
      exact (congrFun (if_pos ended) j).trans (Function.update_self _ _ _)
    · obtain ⟨remaining, -, done⟩ := work_others s policy quantum rest same
      have absent : j ∉ s.ready := fun member => by
        rcases List.mem_cons.mp (perm.mem_iff.mp member) with rfl | member
        · exact same rfl
        · exact notReady member
      obtain ⟨nothing, d, past, ended⟩ := sound.stopped j away absent nofun
      exact ⟨remaining.trans nothing, d, past.trans later, done.trans ended⟩

theorem Sound.requeue (sound : Sound w (unfinished s i) s) : Sound w none (s.requeue i) := by
  unfold State.requeue
  split
  · rename_i left
    rwa [unfinished, if_pos left] at sound
  · rename_i more
    have running : unfinished s i = some i := if_neg more
    rw [running] at sound
    have absent : i ∉ s.ready := fun member => sound.apart i member rfl
    refine ⟨sound.sorted, ?_, fun j member => ?_, fun _ _ => nofun, fun j place => ?_,
      fun j away notReady _ => ?_⟩
    · refine List.nodup_append.mpr ⟨sound.distinct, List.nodup_singleton _, ?_⟩
      rintro a member b last rfl
      exact absent (List.mem_singleton.mp last ▸ member)
    · obtain ⟨notReady, free, rest⟩ := sound.coming j member
      refine ⟨?_, nofun, rest⟩
      rw [List.mem_append, List.mem_singleton]
      rintro (again | rfl)
      · exact notReady again
      · exact free rfl
    · refine sound.waiting j ?_
      rcases place with member | none
      · rcases List.mem_append.mp member with before | last
        · exact .inl before
        · exact .inr (congrArg some (List.mem_singleton.mp last).symm)
      · cases none
    · rw [List.mem_append, List.mem_singleton, not_or] at notReady
      refine sound.stopped j away notReady.1 fun same => ?_
      exact notReady.2 (Option.some.inj same).symm

theorem AtHead.jump (head : AtHead w s) (going : s.Going) : Sound w none (w.jump s) ∧
    (∀ i ∈ s.pending, (w.jump s).now ≤ w.arrival i) ∧ s.now ≤ (w.jump s).now := by
  obtain ⟨sound, early, settled⟩ := head
  rcases jump_cases (w := w) going with ⟨-, same⟩ | ⟨i, rest, none, pending, jumped⟩
  · rw [same]
    exact ⟨sound, early, le_rfl⟩
  · rw [jumped]
    refine ⟨⟨sound.sorted, sound.distinct, sound.coming, sound.apart, fun j place => ?_,
      fun j away notReady free => ?_⟩, fun j member => ?_, le_max_left _ _⟩
    · obtain ⟨arrived, rest⟩ := sound.waiting j place
      exact ⟨arrived.trans (le_max_left _ _), rest⟩
    · obtain ⟨nothing, d, past, ended⟩ := sound.stopped j away notReady free
      exact ⟨nothing, d, past.trans (le_max_left _ _), ended⟩
    · refine max_le (early j member) ?_
      rw [pending] at member
      rcases List.mem_cons.mp member with rfl | later
      · exact le_rfl
      · have sorted := sound.sorted
        rw [pending] at sorted
        exact joins_arrival ((List.pairwise_cons.mp sorted).1 j later)

theorem start_head (w : Workload n) : AtHead w w.start := by
  have everyone (i : Fin n) : i ∈ w.start.pending := by
    simp [Workload.start, List.mem_insertionSort]
  refine ⟨⟨?_, List.nodup_nil, fun i _ => ⟨by simp [Workload.start], nofun, rfl, rfl, rfl⟩, nofun, nofun,
    fun i away _ _ => absurd (everyone i) away⟩, fun i _ => Nat.zero_le _, nofun⟩
  exact insertionSort_strict (joins_injective w) (List.nodup_finRange n)

/-- What a pass does to a sound state: idle time and arrivals, then at most one slice. -/
theorem AtHead.cases (head : AtHead w s) (going : s.Going) (policy : Policy) (quantum : Nat) :
    ∃ a, a = w.arrive (w.jump s) ∧ Sound w none a ∧ (∀ i ∈ a.pending, a.now < w.arrival i) ∧
      ((a.ready = [] ∧ w.pass policy quantum s = a) ∨
        ∃ i rest, w.select policy a = some (i, rest) ∧
          w.pass policy quantum s = (w.arrive (a.work policy quantum i rest)).requeue i) := by
  obtain ⟨sound, -, -⟩ := head.jump going
  exact ⟨_, rfl, sound.arrive, sound.arrive_early, pass_cases w policy quantum s⟩

/-- A pass that serves nobody. -/
structure Idles (w : Workload n) (s t : State n) : Prop where
  before : s.ready = []
  arrived : t = w.arrive (w.jump s)
  ready : t.ready = []
  trace : t.trace = s.trace
  remaining : t.remaining = s.remaining
  later : s.now ≤ t.now

/-- A pass that serves a slice of `i`: the state `a` it selects from, and `t` after it. -/
structure Serves (w : Workload n) (policy : Policy) (quantum : Nat) (s a t : State n) (i : Fin n)
    (rest : List (Fin n)) : Prop where
  arrived : a = w.arrive (w.jump s)
  sound : Sound w none a
  chosen : w.select policy a = some (i, rest)
  later : s.now ≤ a.now
  same : s.ready ≠ [] → a.now = s.now ∧ a.ready = s.ready
  remaining : a.remaining = s.remaining
  now : t.now = a.now + a.duration policy quantum i
  trace : t.trace = s.trace ++ [⟨i, a.now, t.now⟩]
  served : t.remaining = Function.update a.remaining i (a.remaining i - a.duration policy quantum i)
  ready : t.ready = rest ++ ((a.pending.filter fun j => w.arrival j ≤ t.now).filter fun j =>
    w.service j ≠ 0) ++ if t.remaining i = 0 then [] else [i]
  pending : t.pending = a.pending.filter fun j => t.now < w.arrival j

theorem AtHead.turn (head : AtHead w s) (going : s.Going) (policy : Policy) (quantum : Nat) :
    Idles w s (w.pass policy quantum s) ∨
      ∃ a i rest, Serves w policy quantum s a (w.pass policy quantum s) i rest := by
  obtain ⟨jumped, -, later⟩ := head.jump going
  obtain ⟨arrived, remaining, trace, pending, ready, -, -⟩ := arrive_arrived w (w.jump s)
  obtain ⟨trace₀, ready₀, -, remaining₀⟩ := jump_other w s
  obtain ⟨a, rfl, sound, -, ⟨nobody, same⟩ | ⟨i, rest, chosen, same⟩⟩ := head.cases going policy quantum
  · refine .inl ⟨?_, same, ?_, ?_, ?_, ?_⟩
    · rw [ready, ready₀] at nobody
      exact (List.append_eq_nil_iff.mp nobody).1
    · rw [same, nobody]
    · rw [same, trace, trace₀]
    · rw [same, remaining, remaining₀]
    · rw [same, arrived]
      exact later
  · refine .inr ⟨_, i, rest, rfl, sound, chosen, arrived ▸ later, fun some => ?_, ?_, ?_, ?_, ?_, ?_, ?_⟩
    · have stays : w.jump s = s := by
        rcases jump_cases (w := w) going with ⟨-, same⟩ | ⟨i, rest, none, -, -⟩
        · exact same
        · exact absurd none some
      have nobody : w.came (w.jump s) = [] := by
        rw [jumped.came, stays, List.filter_eq_nil_iff]
        intro j member
        have late := head.settled some j member
        simpa using late
      rw [arrived, ready, nobody, stays]
      simp
    · rw [remaining, remaining₀]
    all_goals
      obtain ⟨now', pending', remaining', -, -, trace'⟩ :=
        requeue_other (w.arrive ((w.arrive (w.jump s)).work policy quantum i rest)) i
      obtain ⟨now'', remaining'', trace'', pending'', ready'', -⟩ :=
        arrive_arrived w ((w.arrive (w.jump s)).work policy quantum i rest)
    · rw [same, now', now'']
      rfl
    · rw [same, now', now'', trace', trace'']
      change (w.arrive (w.jump s)).trace ++ _ = _
      rw [trace, trace₀]
      rfl
    · rw [same, remaining', remaining'']
      rfl
    · rw [same, requeue_ready, remaining', ready'', now', now'', (sound.work chosen).came]
      rfl
    · rw [same, pending', pending'', now', now'', (sound.work chosen).left]
      rfl

theorem AtHead.pass (head : AtHead w s) (going : s.Going) : AtHead w (w.pass policy quantum s) := by
  obtain ⟨a, -, sound, early, ⟨nobody, same⟩ | ⟨i, rest, chosen, same⟩⟩ := head.cases going policy quantum
  · rw [same]
    exact ⟨sound, fun i member => (early i member).le, fun some => absurd nobody some⟩
  · rw [same]
    have worked : Sound w (unfinished (a.work policy quantum i rest) i) (a.work policy quantum i rest) :=
      sound.work chosen
    have left : unfinished (w.arrive (a.work policy quantum i rest)) i =
        unfinished (a.work policy quantum i rest) i := by
      unfold unfinished
      rw [(arrive_arrived w _).remaining]
    obtain ⟨now, pending, -⟩ := requeue_other (w.arrive (a.work policy quantum i rest)) i
    have strictly : ∀ j ∈ ((w.arrive (a.work policy quantum i rest)).requeue i).pending,
        ((w.arrive (a.work policy quantum i rest)).requeue i).now < w.arrival j := by
      rw [now, pending]
      exact worked.arrive_early
    refine ⟨Sound.requeue ?_, fun j member => (strictly j member).le, fun _ => strictly⟩
    rw [left]
    exact worked.arrive

end Neonos.Scheduling
