import Neonos.SchedulingTable

/-! The scheduling simulator cannot see the future: jobs that arrive at a time
or later change no slice that starts before that time. -/
namespace Neonos.Scheduling
open StableChoice WhileLoop SortedLine

variable {w : Workload n} {v : Workload (n + k)} {policy : Policy} {quantum limit : Nat} {s t a : State n}
  {s' t' b : State (n + k)} {i j : Fin n} {rest : List (Fin n)}

/-- The slices that start before `limit`. -/
def past (limit : Nat) (trace : List (Slice ι)) : List (Slice ι) := trace.filter fun x => x.start < limit

/-! ### From `limit` on -/

/-- Whatever starts from here on starts at `limit` or later. -/
def Beyond (w : Workload n) (limit : Nat) (s : State n) : Prop :=
  limit ≤ s.now ∨ s.ready = [] ∧ ∀ i ∈ s.pending, limit ≤ w.arrival i

theorem Beyond.jump (beyond : Beyond w limit s) (going : s.Going) : limit ≤ (w.jump s).now := by
  rcases jump_cases (w := w) going with ⟨some, same⟩ | ⟨i, rest, -, pending, jumped⟩
  · rw [same]
    exact beyond.resolve_right fun both => some both.1
  · rw [jumped]
    rcases beyond with later | ⟨-, late⟩
    · exact later.trans (le_max_left _ _)
    · exact (late i (pending ▸ List.mem_cons_self)).trans (le_max_right _ _)

theorem Beyond.pass (beyond : Beyond w limit s) (policy : Policy) (quantum : Nat) (head : AtHead w s) (going : s.Going) :
    Beyond w limit (w.pass policy quantum s) ∧ past limit (w.pass policy quantum s).trace = past limit s.trace := by
  have later := beyond.jump going
  rcases head.turn going policy quantum with idles | ⟨a, i, rest, serves⟩
  · rw [idles.trace]
    refine ⟨.inl ?_, rfl⟩
    rw [idles.arrived, (arrive_arrived w _).now]
    exact later
  · have since : limit ≤ a.now := by
      rw [serves.arrived, (arrive_arrived w _).now]
      exact later
    refine ⟨.inl ?_, ?_⟩
    · rw [serves.now]
      exact since.trans (Nat.le_add_right _ _)
    · rw [serves.trace, past, List.filter_append]
      simp [past, since]

theorem Beyond.ends (beyond : Beyond w limit s) (head : AtHead w s) (leads : w.Leads policy quantum s t) :
    past limit t.trace = past limit s.trace := by
  obtain ⟨t', same, ⟨-, -, kept⟩, -⟩ : ∃ t', Except.ok t = .ok t' ∧
      (AtHead w t' ∧ Beyond w limit t' ∧ past limit t'.trace = past limit s.trace) ∧ ¬ t'.Going := by
    apply Ends.invariant leads
    · rintro m ⟨head, beyond, kept⟩ going
      obtain ⟨beyond', still⟩ := beyond.pass policy quantum head going
      exact ⟨_, rfl, head.pass going, beyond', still.trans kept⟩
    · exact ⟨head, beyond, rfl⟩
  cases same
  exact kept

/-! ### Before `limit` -/

/-- `v` is `w` with further jobs at the end, none of which arrives before `limit`. -/
structure Extends (w : Workload n) (v : Workload (n + k)) (limit : Nat) : Prop where
  name : ∀ i, v.name (Fin.castAdd k i) = w.name i
  arrival : ∀ i, v.arrival (Fin.castAdd k i) = w.arrival i
  service : ∀ i, v.service (Fin.castAdd k i) = w.service i
  late : ∀ j, limit ≤ v.arrival (Fin.natAdd n j)

/-- A slice of the shorter list of jobs in the longer one. -/
def Slice.cast (k : Nat) (x : Slice (Fin n)) : Slice (Fin (n + k)) := ⟨Fin.castAdd k x.job, x.start, x.stop⟩

/-- The further jobs are still to come, everything else is the same. -/
structure InStep (s : State n) (s' : State (n + k)) : Prop where
  now : s'.now = s.now
  ready : s'.ready = s.ready.map (Fin.castAdd k)
  pending : ∀ i, Fin.castAdd k i ∈ s'.pending ↔ i ∈ s.pending
  further : ∀ j, Fin.natAdd n j ∈ s'.pending
  remaining : ∀ i, s'.remaining (Fin.castAdd k i) = s.remaining i
  trace : s'.trace = s.trace.map (Slice.cast k)

theorem start_inStep (more : Extends w v limit) : InStep w.start v.start := by
  refine ⟨rfl, rfl, fun i => ?_, fun j => ?_, more.service, rfl⟩ <;>
    simp [Workload.start, List.mem_insertionSort]

/-- The further jobs do not change who joins before whom. -/
theorem Extends.joins (more : Extends w v limit) (i j : Fin n) :
    v.joins (Fin.castAdd k i) < v.joins (Fin.castAdd k j) ↔ w.joins i < w.joins j := by
  unfold Workload.joins
  rw [Prod.Lex.toLex_lt_toLex, Prod.Lex.toLex_lt_toLex, more.arrival, more.arrival]
  exact Iff.rfl

theorem InStep.early (step : InStep s s') (more : Extends w v limit) (j : Fin (n + k)) (due : v.arrival j < limit) :
    ∃ i, j = Fin.castAdd k i ∧ v.arrival j = w.arrival i ∧ (j ∈ s'.pending ↔ i ∈ s.pending) := by
  induction j using Fin.addCases with
  | left i => exact ⟨i, rfl, more.arrival i, step.pending i⟩
  | right j => exact absurd (more.late j) (not_le.mpr due)

theorem InStep.beyond (step : InStep s s') (more : Extends w v limit) (beyond : Beyond w limit s) :
    Beyond v limit s' := by
  rcases beyond with later | ⟨nobody, late⟩
  · exact .inl (step.now ▸ later)
  · refine .inr ⟨by rw [step.ready, nobody]; rfl, fun j member => ?_⟩
    by_contra early
    obtain ⟨i, -, arrival, among⟩ := step.early more j (not_le.mp early)
    exact early (arrival ▸ late i (among.mp member))

/-- Somebody has a slice before `limit`. -/
theorem going_of_not_beyond (near : ¬ Beyond w limit s) : s.Going := by
  unfold Beyond at near
  rw [not_or, not_and_or] at near
  rcases near.2 with waiting | coming
  · exact .inr waiting
  · refine .inl fun none => coming fun i member => ?_
    rw [none] at member
    cases member

theorem InStep.going (step : InStep s s') (going : s.Going) : s'.Going := by
  rcases going with coming | waiting
  · obtain ⟨i, rest, pending⟩ := List.exists_cons_of_ne_nil coming
    have member := (step.pending i).mpr (pending ▸ List.mem_cons_self)
    exact .inl (List.ne_nil_of_mem member)
  · exact .inr (by rw [step.ready]; simpa using waiting)

/-- The first of a sorted line arrives first. -/
theorem first_arrives (sorted : s.pending.Pairwise fun i j => w.joins i < w.joins j) (pending : s.pending = i :: rest)
    (member : j ∈ s.pending) : w.arrival i ≤ w.arrival j := by
  rw [pending] at member sorted
  rcases List.mem_cons.mp member with rfl | later
  · exact le_rfl
  · exact joins_arrival ((List.pairwise_cons.mp sorted).1 j later)

/-- Before `limit` the time moves to the same arrival. -/
theorem InStep.jump (step : InStep s s') (more : Extends w v limit) (head : AtHead w s) (head' : AtHead v s')
    (near : ¬ Beyond w limit s) : InStep (w.jump s) (v.jump s') ∧ (w.jump s).now < limit := by
  have going := going_of_not_beyond near
  have before : s.now < limit := not_le.mp fun later => near (.inl later)
  rcases jump_cases (w := w) going with ⟨some, stays⟩ | ⟨i, rest, nobody, pending, jumped⟩
  · rcases jump_cases (w := v) (step.going going) with ⟨-, stays'⟩ | ⟨-, -, nobody, -, -⟩
    · rw [stays, stays']
      exact ⟨step, before⟩
    · rw [step.ready, List.map_eq_nil_iff] at nobody
      exact absurd nobody some
  · have mine : i ∈ s.pending := pending ▸ List.mem_cons_self
    have soon : w.arrival i < limit := by
      by_contra late
      refine near (.inr ⟨nobody, fun j member => ?_⟩)
      exact (not_lt.mp late).trans (first_arrives head.sound.sorted pending member)
    rcases jump_cases (w := v) (step.going going) with ⟨some, -⟩ | ⟨i', rest', -, pending', jumped'⟩
    · rw [step.ready, nobody] at some
      exact absurd rfl some
    · have mine' : i' ∈ s'.pending := pending' ▸ List.mem_cons_self
      have upto : v.arrival i' ≤ w.arrival i := by
        rw [← more.arrival]
        exact first_arrives head'.sound.sorted pending' ((step.pending i).mpr mine)
      obtain ⟨j, -, arrival, among⟩ := step.early more i' (upto.trans_lt soon)
      have same : v.arrival i' = w.arrival i :=
        le_antisymm upto (arrival ▸ first_arrives head.sound.sorted pending (among.mp mine'))
      rw [jumped, jumped']
      refine ⟨⟨?_, step.ready, step.pending, step.further, step.remaining, step.trace⟩, max_lt before soon⟩
      simp only [same, step.now]

theorem InStep.arrive (step : InStep s s') (more : Extends w v limit) (before : s.now < limit)
    (sorted : s.pending.Pairwise fun i j => w.joins i < w.joins j)
    (sorted' : s'.pending.Pairwise fun i j => v.joins i < v.joins j) : InStep (w.arrive s) (v.arrive s') := by
  obtain ⟨now, remaining, trace, pending, ready, -, -⟩ := arrive_arrived w s
  obtain ⟨now', remaining', trace', pending', ready', -, -⟩ := arrive_arrived v s'
  have came : v.came s' = (w.came s).map (Fin.castAdd k) := by
    rw [came_filter sorted, came_filter sorted']
    have order : (s'.pending.filter fun i => v.arrival i ≤ s'.now).Pairwise fun i j => v.joins i < v.joins j :=
      sorted'.sublist List.filter_sublist
    have order' : ((s.pending.filter fun i => w.arrival i ≤ s.now).map (Fin.castAdd k)).Pairwise
        fun i j => v.joins i < v.joins j :=
      List.pairwise_map.mpr ((sorted.sublist List.filter_sublist).imp fun before => (more.joins _ _).mpr before)
    refine eq_of_mem_iff order order' fun j => ?_
    simp only [List.mem_map, List.mem_filter, decide_eq_true_eq]
    constructor
    · rintro ⟨member, due⟩
      obtain ⟨i, rfl, arrival, among⟩ := step.early more j (by rw [step.now] at due; omega)
      exact ⟨i, ⟨among.mp member, by rw [← arrival, ← step.now]; exact due⟩, rfl⟩
    · rintro ⟨i, ⟨member, due⟩, rfl⟩
      exact ⟨(step.pending i).mpr member, by rw [more.arrival, step.now]; exact due⟩
  refine ⟨?_, ?_, fun i => ?_, fun j => ?_, fun i => ?_, ?_⟩
  · rw [now, now', step.now]
  · rw [ready, ready', came, step.ready, List.map_append, List.filter_map]
    congr 2
    apply List.filter_congr
    intro i _
    simp [more.service]
  · rw [pending, pending', left_filter sorted, left_filter sorted']
    simp [step.pending, more.arrival, step.now]
  · have late := more.late j
    rw [pending', left_filter sorted', List.mem_filter, step.now, decide_eq_true_eq]
    exact ⟨step.further j, by omega⟩
  · rw [remaining, remaining', step.remaining]
  · rw [trace, trace', step.trace]

theorem InStep.select (step : InStep s s') (more : Extends w v limit) (policy : Policy) :
    v.select policy s' = (w.select policy s).map fun (i, rest) => (Fin.castAdd k i, rest.map (Fin.castAdd k)) := by
  cases policy with
  | fcfs | rr =>
    cases ready : s.ready <;> simp [Workload.select, step.ready, ready]
  | sjf =>
    have keys (i j : Fin n) : v.shortest s' (Fin.castAdd k i) < v.shortest s' (Fin.castAdd k j) ↔
        w.shortest s i < w.shortest s j := by
      simp only [Workload.shortest, Prod.Lex.toLex_lt_toLex, step.remaining, more.arrival]
      exact Iff.rfl
    simp only [Workload.select, step.ready, least_map _ keys, Option.map_map]
    congr 1
    funext i
    simp only [Function.comp_apply]
    rw [List.map_erase (Fin.castAdd_injective n k)]

theorem InStep.work (step : InStep s s') (policy : Policy) (quantum : Nat) (i : Fin n) (rest : List (Fin n)) :
    InStep (s.work policy quantum i rest) (s'.work policy quantum (Fin.castAdd k i) (rest.map (Fin.castAdd k))) := by
  have long : s'.duration policy quantum (Fin.castAdd k i) = s.duration policy quantum i := by
    unfold State.duration
    rw [step.remaining]
  refine ⟨?_, rfl, step.pending, step.further, fun j => ?_, ?_⟩
  · change s'.now + s'.duration policy quantum (Fin.castAdd k i) = s.now + s.duration policy quantum i
    rw [long, step.now]
  · by_cases own : j = i
    · subst own
      rw [(work_mine ..).1, (work_mine ..).1, long, step.remaining]
    · have other : Fin.castAdd k j ≠ Fin.castAdd k i := (Fin.castAdd_injective n k).ne own
      rw [(work_others _ _ _ _ own).1, (work_others _ _ _ _ other).1, step.remaining]
  · simp only [State.work, long, step.now, step.trace, List.map_append]
    rfl

theorem InStep.requeue (step : InStep s s') (i : Fin n) : InStep (s.requeue i) (s'.requeue (Fin.castAdd k i)) := by
  obtain ⟨now, pending, remaining, -, -, trace⟩ := requeue_other s i
  obtain ⟨now', pending', remaining', -, -, trace'⟩ := requeue_other s' (Fin.castAdd k i)
  refine ⟨?_, ?_, fun j => ?_, fun j => ?_, fun j => ?_, ?_⟩
  · rw [now, now', step.now]
  · rw [requeue_ready, requeue_ready, step.ready, step.remaining, List.map_append]
    split <;> rfl
  · rw [pending, pending', step.pending]
  · rw [pending']
    exact step.further j
  · rw [remaining, remaining', step.remaining]
  · rw [trace, trace', step.trace]

/-- The same slices so far, and `limit` is reached. -/
structure Parted (limit : Nat) (s : State n) (s' : State (n + k)) : Prop where
  reached : limit ≤ s.now
  reached' : limit ≤ s'.now
  trace : s'.trace = s.trace.map (Slice.cast k)

/-- A pass that starts before `limit`. -/
theorem InStep.pass (step : InStep s s') (more : Extends w v limit) (head : AtHead w s) (head' : AtHead v s')
    (near : ¬ Beyond w limit s) (policy : Policy) (quantum : Nat) :
    InStep (w.pass policy quantum s) (v.pass policy quantum s') ∨
      Parted limit (w.pass policy quantum s) (v.pass policy quantum s') := by
  have going := going_of_not_beyond near
  obtain ⟨jumped, before⟩ := step.jump more head head' near
  have sorted := (head.jump going).1.sorted
  have sorted' := (head'.jump (step.going going)).1.sorted
  have arrived := jumped.arrive more before sorted sorted'
  have clock := (arrive_arrived w (w.jump s)).now
  have chosen := arrived.select more policy
  obtain ⟨a, rfl, sound, -, ⟨nobody, same⟩ | ⟨i, rest, found, same⟩⟩ := head.cases going policy quantum
  · obtain ⟨b, rfl, -, -, ⟨-, same'⟩ | ⟨i', rest', found', -⟩⟩ := head'.cases (step.going going) policy quantum
    · rw [same, same']
      exact .inl arrived
    · have waiting : i' ∈ (v.arrive (v.jump s')).ready := (select_some found').1.mem_iff.mpr List.mem_cons_self
      rw [arrived.ready, nobody] at waiting
      cases waiting
  · rw [found] at chosen
    obtain ⟨b, rfl, sound', -, ⟨nobody, -⟩ | ⟨i', rest', found', same'⟩⟩ :=
      head'.cases (step.going going) policy quantum
    · have waiting : i ∈ (w.arrive (w.jump s)).ready := (select_some found).1.mem_iff.mpr List.mem_cons_self
      rw [arrived.ready, List.map_eq_nil_iff] at nobody
      rw [nobody] at waiting
      cases waiting
    · cases found'.symm.trans chosen
      have worked := arrived.work policy quantum i rest
      rw [same, same']
      by_cases soon : ((w.arrive (w.jump s)).work policy quantum i rest).now < limit
      · exact .inl ((worked.arrive more soon sound.sorted sound'.sorted).requeue i)
      · obtain ⟨now, -, -, -, -, trace⟩ := requeue_other (w.arrive ((w.arrive (w.jump s)).work policy quantum i rest)) i
        obtain ⟨now', -, -, -, -, trace'⟩ := requeue_other (v.arrive ((v.arrive (v.jump s')).work policy quantum
          (Fin.castAdd k i) (rest.map (Fin.castAdd k)))) (Fin.castAdd k i)
        refine .inr ⟨?_, ?_, ?_⟩
        · rw [now, (arrive_arrived w _).now]
          exact not_lt.mp soon
        · rw [now', (arrive_arrived v _).now, worked.now]
          exact not_lt.mp soon
        · rw [trace, trace', (arrive_arrived w _).trace, (arrive_arrived v _).trace, worked.trace]

/-- Both heads of the loop until `limit` is reached. -/
def Together (w : Workload n) (v : Workload (n + k)) (limit : Nat) (s : State n) (s' : State (n + k)) : Prop :=
  AtHead w s ∧ AtHead v s' ∧ (InStep s s' ∨ Parted limit s s')

/-- From here on nothing starts before `limit`, and what has started is the same. -/
def Apart (w : Workload n) (v : Workload (n + k)) (limit : Nat) (s : State n) (s' : State (n + k)) : Prop :=
  AtHead w s ∧ AtHead v s' ∧ Beyond w limit s ∧ Beyond v limit s' ∧ s'.trace = s.trace.map (Slice.cast k)

theorem together_step (more : Extends w v limit) (policy : Policy) (quantum : Nat) (s : State n) (s' : State (n + k))
    (together : Together w v limit s s') : Apart w v limit s s' ∨ s.Going ∧ s'.Going ∧
      Together w v limit (w.pass policy quantum s) (v.pass policy quantum s') := by
  obtain ⟨head, head', step | parted⟩ := together
  · by_cases near : Beyond w limit s
    · exact .inl ⟨head, head', near, step.beyond more near, step.trace⟩
    · have going := going_of_not_beyond near
      have going' := step.going going
      exact .inr ⟨going, going', head.pass going, head'.pass going', step.pass more head head' near policy quantum⟩
  · exact .inl ⟨head, head', .inl parted.reached, .inl parted.reached', parted.trace⟩

/-- What starts before `limit` is the same in both runs. -/
theorem same_past (more : Extends w v limit) (leads : w.Leads policy quantum w.start t)
    (leads' : v.Leads policy quantum v.start t') : past limit t'.trace = (past limit t.trace).map (Slice.cast k) := by
  obtain ⟨m, m', ⟨head, head', beyond, beyond', trace⟩, rest, rest'⟩ :
      ∃ m m', Apart w v limit m m' ∧ w.Leads policy quantum m t ∧ v.Leads policy quantum m' t' := by
    have start : Together w v limit w.start v.start := ⟨start_head w, start_head v, .inl (start_inStep more)⟩
    refine leads.partway leads' (fun m m' together => ?_) start
    refine (together_step more policy quantum m m' together).imp_right fun ⟨going, going', next⟩ => ⟨going, going', ?_⟩
    rintro _ _ ⟨⟩ ⟨⟩
    exact next
  rw [beyond.ends head rest, beyond'.ends head' rest', trace, past, past, List.filter_map]
  rfl

/-! ### Jobs that are complete by `limit` -/

/-- A part of the slices that already has all the time has all the slices. -/
theorem filter_whole {line : List α} (size : α → Nat) {p : α → Bool} (positive : ∀ x ∈ line, 0 < size x)
    (enough : (line.map size).sum ≤ ((line.filter p).map size).sum) : line.filter p = line := by
  induction line with
  | nil => rfl
  | cons x line ih =>
    have part : ((line.filter p).map size).sum ≤ (line.map size).sum :=
      (List.filter_sublist.map size).sum_le_sum fun _ _ => Nat.zero_le _
    have one := positive x List.mem_cons_self
    by_cases holds : p x
    · rw [List.filter_cons_of_pos holds] at enough ⊢
      simp only [List.map_cons, List.sum_cons] at enough
      rw [ih (fun y member => positive y (List.mem_cons_of_mem x member)) (by omega)]
    · rw [List.filter_cons_of_neg holds] at enough
      simp only [List.map_cons, List.sum_cons] at enough
      omega

theorem own_past (limit : Nat) (trace : List (Slice (Fin n))) (i : Fin n) :
    own (past limit trace) i = past limit (own trace i) := by
  unfold own past
  rw [List.filter_filter, List.filter_filter]
  apply List.filter_congr
  intro x _
  rw [Bool.and_comm]

/-- A job that is complete by `limit` has the same slices in both runs. -/
theorem own_same (ended : Ended w t) (ended' : Ended v t') (more : Extends w v limit)
    (past_same : past limit t'.trace = (past limit t.trace).map (Slice.cast k))
    (done : t.done i = some d) (early : d ≤ limit) :
    own t'.trace (Fin.castAdd k i) = (own t.trace i).map (Slice.cast k) := by
  have all : past limit (own t.trace i) = own t.trace i := by
    rw [past, List.filter_eq_self]
    intro x member
    obtain ⟨inside, rfl⟩ := mem_own.mp member
    obtain ⟨d', done', last⟩ := ended.done_last inside
    cases done.symm.trans done'
    have running := ended.positive x inside
    simp only [decide_eq_true_eq]
    omega
  have some : past limit (own t'.trace (Fin.castAdd k i)) = (own t.trace i).map (Slice.cast k) := by
    rw [← own_past, past_same, ← all, ← own_past]
    unfold own
    rw [List.filter_map]
    congr 1
    apply List.filter_congr
    intro x _
    simp [Slice.cast]
  have whole : served t'.trace (Fin.castAdd k i) = served t.trace i := by
    rw [ended'.whole, ended.whole, more.service]
  have sizes : ((own t.trace i).map (Slice.cast k)).map Slice.length = (own t.trace i).map Slice.length := by
    rw [List.map_map]
    rfl
  rw [← some]
  refine (filter_whole Slice.length (fun x member => ?_) ?_).symm
  · have running := ended'.positive x (mem_own.mp member).1
    rw [Slice.length]
    omega
  · change _ ≤ ((past limit (own t'.trace (Fin.castAdd k i))).map Slice.length).sum
    rw [some, sizes]
    exact whole.le

theorem metrics_same (ended : Ended w t) (ended' : Ended v t') (more : Extends w v limit)
    (past_same : past limit t'.trace = (past limit t.trace).map (Slice.cast k))
    (early : w.arrival i + (t.metrics w i).turnaround ≤ limit) :
    t'.metrics v (Fin.castAdd k i) = t.metrics w i := by
  have arrival := more.arrival i
  have service := more.service i
  rcases Nat.eq_zero_or_pos (w.service i) with zero | proper
  · have empty := ended.valid.empty i zero
    have empty' := ended'.valid.empty (Fin.castAdd k i) (service.trans zero)
    exact empty'.trans empty.symm
  · obtain ⟨x, y, head, last, first, done, -⟩ := ended.endpoints proper
    obtain ⟨x', y', head', last', first', done', -⟩ := ended'.endpoints (service ▸ proper)
    have soon : y.stop ≤ limit := by
      simp only [State.metrics, done, Option.getD_some] at early
      omega
    have same := own_same ended ended' more past_same done soon
    rw [same, List.head?_map, head] at head'
    rw [same, List.getLast?_map, last] at last'
    cases head'
    cases last'
    simp only [State.metrics, first, done, first', done', arrival, Slice.cast]

/-- The names of the jobs do not tell the runs apart. -/
theorem past_label (more : Extends w v limit)
    (past_same : past limit t'.trace = (past limit t.trace).map (Slice.cast k)) :
    past limit (t'.trace.map v.label) = past limit (t.trace.map w.label) := by
  have labels {m : Nat} (u : Workload m) (trace : List (Slice (Fin m))) :
      past limit (trace.map u.label) = (past limit trace).map u.label := by
    rw [past, List.filter_map]
    rfl
  rw [labels, labels, past_same, List.map_map]
  apply List.map_congr_left
  intro x _
  simp [Workload.label, Slice.cast, more.name]

/-- The workloads of a list of jobs and of one with further jobs at its end. -/
theorem validate_appended (jobs : Fin n → Job) (further : Fin k → Job) (limit : Int)
    (named : Function.Injective fun i => (Fin.append jobs further i).name)
    (proper : ∀ i, 0 ≤ (Fin.append jobs further i).arrival ∧ 0 ≤ (Fin.append jobs further i).service)
    (late : ∀ j, limit ≤ (further j).arrival) :
    ∃ (w : Workload n) (v : Workload (n + k)), validate jobs = .ok w ∧
      validate (Fin.append jobs further) = .ok v ∧ Extends w v limit.toNat ∧
      ∀ i, (w.arrival i : Int) = (jobs i).arrival := by
  have named' : Function.Injective fun i => (jobs i).name := by
    intro i j same
    refine Fin.castAdd_injective n k (named ?_)
    simpa only [Fin.append_left] using same
  have proper' (i : Fin n) : 0 ≤ (jobs i).arrival ∧ 0 ≤ (jobs i).service := by
    have both := proper (Fin.castAdd k i)
    rwa [Fin.append_left] at both
  obtain ⟨w, accepted, same⟩ := validate_accepts jobs named' proper'
  obtain ⟨v, accepted', same'⟩ := validate_accepts _ named proper
  refine ⟨w, v, accepted, accepted', ⟨fun i => ?_, fun i => ?_, fun i => ?_, fun j => ?_⟩, fun i => (same i).2.1⟩
  · rw [(same' _).1, (same i).1, Fin.append_left]
  · have arrival := (same' (Fin.castAdd k i)).2.1
    rw [Fin.append_left, ← (same i).2.1] at arrival
    exact Int.ofNat_inj.mp arrival
  · have service := (same' (Fin.castAdd k i)).2.2
    rw [Fin.append_left, ← (same i).2.2] at service
    exact Int.ofNat_inj.mp service
  · have arrival := (same' (Fin.natAdd n j)).2.1
    rw [Fin.append_right] at arrival
    have behind := late j
    omega

/-- Jobs that arrive at `limit` or later change no slice that starts before, and
no metrics of a job that is complete by then. -/
theorem blind (jobs : Fin n → Job) (further : Fin k → Job) (limit : Int)
    (named : Function.Injective fun i => (Fin.append jobs further i).name)
    (proper : ∀ i, 0 ≤ (Fin.append jobs further i).arrival ∧ 0 ≤ (Fin.append jobs further i).service)
    (late : ∀ j, limit ≤ (further j).arrival) (policy : Policy) (positive : 0 < quantum) :
    ∃ r r', Simulates jobs policy quantum r ∧ Simulates (Fin.append jobs further) policy quantum r' ∧
      (r'.trace.filter fun x => (x.start : Int) < limit) = (r.trace.filter fun x => (x.start : Int) < limit) ∧
      ∀ i, (jobs i).arrival + (r.result i).turnaround ≤ limit → r'.result (Fin.castAdd k i) = r.result i := by
  obtain ⟨w, v, accepted, accepted', more, arrival⟩ := validate_appended jobs further limit named proper late
  obtain ⟨t, leads, -⟩ := schedule_ends w policy positive
  obtain ⟨t', leads', -⟩ := schedule_ends v policy positive
  obtain ⟨ended, returns⟩ := leads_returns positive leads
  obtain ⟨ended', returns'⟩ := leads_returns positive leads'
  have past_same := same_past more leads leads'
  refine ⟨_, _, Returns.simulate accepted positive returns, Returns.simulate accepted' positive returns', ?_,
    fun i early => ?_⟩
  · have bound (x : Slice String) : decide ((x.start : Int) < limit) = decide (x.start < limit.toNat) := by
      rw [decide_eq_decide]
      omega
    simp only [bound]
    exact past_label more past_same
  · refine metrics_same ended ended' more past_same ?_
    rw [← arrival] at early
    have valid := (ended.bounds i)
    obtain ⟨f, d, -, done, -⟩ := valid
    simp only [State.metrics, done, Option.getD_some] at early ⊢
    omega

end Neonos.Scheduling
