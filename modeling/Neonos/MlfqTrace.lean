import Mathlib
import Neonos.MlfqPass

/-! The schedule the MLFQ simulator writes down: the loop always ends, and its
trace gives every job its service, respects every wait and never idles while
somebody is ready. -/
namespace Neonos.Mlfq
open StableChoice WhileLoop

variable {w : Workload n} {policy : Policy} {period : Nat} {s t : State n} {i j : Fin n} {e : Entry} {x : Tick (Fin n)}

/-! ### The loop ends -/

/-- What an entry still has to do: its ticks and its completion. -/
def Entry.toll (e : Entry) : Nat := e.left + if e.done = none then 1 else 0

def toll (s : State n) : Nat := ∑ i, (s.entries i).toll

instance (s : State n) : Decidable (Settled s) := inferInstanceAs (Decidable (∀ _, _ → _))

/-- Nobody to run before time moves on. -/
def Stuck (s : State n) : Prop := s.current = none ∧ s.ready = [] ∧ Settled s

instance (s : State n) : Decidable (Stuck s) := inferInstanceAs (Decidable (_ ∧ _ ∧ _))

/-- Two for each unit of work, so that a turn without any pays for moving the time. -/
def pending (s : State n) : Nat := 2 * toll s + if Stuck s then 1 else 0

theorem toll_le (each : ∀ i, (s.entries i).toll ≤ (t.entries i).toll) : toll s ≤ toll t :=
  Finset.sum_le_sum fun i _ => each i

theorem toll_lt (i : Fin n) (each : ∀ i, (s.entries i).toll ≤ (t.entries i).toll)
    (less : (s.entries i).toll < (t.entries i).toll) : toll s < toll t :=
  Finset.sum_lt_sum (fun i _ => each i) ⟨i, Finset.mem_univ i, less⟩

theorem woken_toll (now : Nat) (e : Entry) : (woken now e).toll ≤ e.toll := by
  unfold woken
  split
  · split <;> simp [Entry.toll]
  · exact le_rfl

/-- A job without service is over when it is scanned. -/
theorem Fits.finishes (fits : Fits w i now mine ticks e) (due : e.Sleeps ∧ e.wake ≤ now) (none : e.left = 0) :
    (Mlfq.woken now e).toll < e.toll := by
  have notDone : e.phase ≠ .done := by
    rcases due.1 with new | blocked <;> simp [*]
  have undone := fits.unended.mpr notDone
  simp [Mlfq.woken, due, none, Entry.toll, undone]

theorem poised_toll (s : State n) (policy : Policy) (period : Nat) (i : Fin n) :
    ((s.poised policy period).entries i).toll = (woken s.now (s.entries i)).toll := by
  obtain ⟨-, -, -, -, -, entries⟩ := boost_other s.scan policy period
  obtain ⟨level, slice, allot, same⟩ := entries i
  have boosted : ((s.scan.boost policy period).entries i).toll = (woken s.now (s.entries i)).toll := by
    rw [same, scan_entries]
    rfl
  rw [← boosted]
  unfold State.poised
  rcases dispatch_cases (s.scan.boost policy period) policy with ⟨k, -, -, given⟩ | ⟨-, given⟩
  · rw [given]
    by_cases own : i = k
    · subst own
      simp [Entry.toll, Entry.taken]
    · simp [own]
  · rw [given]

theorem giveUp_toll (s : State n) (i j : Fin n) : ((s.giveUp i).entries j).toll = (s.entries j).toll := by
  rcases giveUp_cases s i with ⟨-, same⟩ | ⟨-, same⟩
  · rw [same]
    by_cases own : j = i
    · subst own
      simp [Entry.toll]
    · simp [own]
  · rw [same]

theorem leave_toll (w : Workload n) (i : Fin n) (now : Nat) (e : Entry) : (w.leave i now e).toll ≤ e.toll := by
  rcases leave_cases w i now e with ⟨-, same⟩ | ⟨-, -, same⟩ | ⟨-, same⟩ <;> simp [same, Entry.toll]

theorem Kept.tick_toll (kept : Kept w s) (policy : Policy) (running : (s.entries i).phase = .running) :
    toll (w.tick policy s i) < toll s := by
  have spent (j : Fin n) : ((w.tick policy s i).entries j).toll ≤ ((w.charged policy s i).entries j).toll := by
    have scanned := woken_toll (w.charged policy s i).now ((w.charged policy s i).entries j)
    rcases tick_cases w policy s i with stopped | ⟨on, -⟩
    · rw [stopped, giveUp_toll, spend_eq, scan_entries]
      exact scanned
    · rw [on, spend_eq, scan_entries]
      exact scanned
  have mine : ((w.charged policy s i).entries i).toll < (s.entries i).toll := by
    have some := (kept.fits i).more (by simp [running]) (by simp [running])
    obtain ⟨level, slice, allot, same⟩ := renew_eq policy (s.entries i)
    rw [charged_mine, same]
    refine (leave_toll w i _ _).trans_lt ?_
    simp only [Entry.toll]
    omega
  refine toll_lt i (fun j => ?_) ((spent i).trans_lt mine)
  by_cases own : j = i
  · subst own
    exact ((spent j).trans_lt mine).le
  · exact (spent j).trans (by rw [charged_others own])

theorem AtHead.decreases (head : AtHead w s) (going : s.Going) (next : w.pass policy period s = .ok t) :
    pending t < pending s := by
  have before : toll (s.poised policy period) ≤ toll s :=
    toll_le fun i => (poised_toll s policy period i).trans_le (woken_toll _ _)
  have flag : (if Stuck t then 1 else 0) ≤ 1 := by split <;> omega
  obtain ⟨a, rfl, head', settled, ⟨free, nobody, same⟩ | ⟨i, current, running, same⟩⟩ := head.cases policy period
  · cases same.symm.trans next
    have still : toll (s.poised policy period).idle = toll (s.poised policy period) := by
      unfold toll
      rcases idle_cases (s.poised policy period) with ⟨_, -, -, moved⟩ | ⟨-, moved⟩ <;> rw [moved]
    have given : s.poised policy period = s.scan.boost policy period := by
      rcases dispatch_cases (s.scan.boost policy period) policy with ⟨i, -, -, taken⟩ | ⟨-, kept⟩
      · have busy : (s.poised policy period).current = some i := by rw [State.poised, taken]
        exact absurd (free.symm.trans busy) nofun
      · exact kept
    obtain ⟨ready, -, now, current, -, entries⟩ := boost_other s.scan policy period
    rw [given] at free nobody
    rw [current, scan_current] at free
    rw [ready, scan_ready, List.append_eq_nil_iff, List.filter_eq_nil_iff] at nobody
    by_cases finishes : ∃ i, ((s.entries i).Sleeps ∧ (s.entries i).wake ≤ s.now) ∧ (s.entries i).left = 0
    · obtain ⟨i, due, none⟩ := finishes
      have less : toll (s.poised policy period) < toll s := by
        refine toll_lt i (fun i => (poised_toll s policy period i).trans_le (woken_toll _ _)) ?_
        exact (poised_toll s policy period i).trans_lt ((head.fits i).finishes due none)
      unfold pending
      omega
    · -- Nothing happened in the scan, so now somebody's time comes.
      have early : Settled s := by
        intro i sleeps
        by_contra late
        have rises : Rises s.now (s.entries i) :=
          ⟨⟨sleeps, not_lt.mp late⟩, fun none => finishes ⟨i, ⟨sleeps, not_lt.mp late⟩, none⟩⟩
        exact nobody.2 i (List.mem_finRange i) (by simpa using rises)
      obtain ⟨i, undone⟩ := going
      have sleeps : (s.entries i).Sleeps := by
        have notDone := (head.fits i).unended.mp undone
        cases phase : (s.entries i).phase with
        | new => exact .inl phase
        | blocked => exact .inr phase
        | done => exact absurd phase notDone
        | running => exact absurd (free.symm.trans (head.running i phase)) nofun
        | ready =>
          have member := (head.ready i).mpr phase
          rw [nobody.1] at member
          cases member
      have sleeps' : ((s.poised policy period).entries i).Sleeps := by
        obtain ⟨level, slice, allot, same⟩ := entries i
        rw [given, same, scan_entries, woken, if_neg fun due => absurd (early i sleeps) (not_lt.mpr due.2)]
        exact sleeps
      have moved : ¬ Stuck (s.poised policy period).idle := by
        rintro ⟨-, -, settled'⟩
        rcases idle_cases (s.poised policy period) with ⟨k, asleep, -, moved⟩ | ⟨nobody', -⟩
        · rw [moved] at settled'
          exact absurd (settled' k asleep) (lt_irrefl _)
        · exact nobody' i sleeps'
      have stuck : Stuck s := ⟨free, nobody.1, early⟩
      unfold pending
      rw [if_neg moved, if_pos stuck]
      omega
  · cases same.symm.trans next
    have less := head'.toKept.tick_toll policy running
    unfold pending
    omega

theorem schedule_ends (w : Workload n) (policy : Policy) (period : Nat) :
    ∃ t, w.Leads policy period (w.start period) t ∧ AtHead w t ∧ ¬ t.Going := by
  refine ends_of_variant pending (fun s head going => ?_) (start_head w period)
  obtain ⟨t, next, head'⟩ := head.pass policy period
  exact ⟨t, next, head', head.decreases going next⟩

/-! ### The end of the loop -/

/-- The end of a simulation: all jobs done. -/
structure Ended (w : Workload n) (t : State n) : Prop extends AtHead w t where
  finished : ∀ i, (t.entries i).phase = .done

theorem AtHead.ended (head : AtHead w t) (stopped : ¬ t.Going) : Ended w t := by
  refine ⟨head, fun i => ?_⟩
  by_contra other
  exact stopped ⟨i, (head.fits i).unended.mpr other⟩

theorem Ended.whole (ended : Ended w t) (i : Fin n) : (times t.trace i).length = w.service i := by
  have fits := ended.fits i
  rw [← fits.left, ← fits.used, fits.stopped (ended.finished i), Nat.zero_add]

theorem Ended.empty (ended : Ended w t) (zero : w.service i = 0) :
    (t.entries i).first = some (w.arrival i) ∧ (t.entries i).done = some (w.arrival i) :=
  (ended.fits i).empty zero (ended.finished i)

/-- `first` and `done` of a job, read off its ticks. -/
theorem Ended.endpoints (ended : Ended w t) (proper : 0 < w.service i) :
    ∃ x y, (times t.trace i).head? = some x ∧ (times t.trace i).getLast? = some y ∧
      (t.entries i).first = some x ∧ (t.entries i).done = some (y + 1) := by
  have fits := ended.fits i
  have first := fits.first proper
  have done := fits.done proper (ended.finished i)
  have long : times t.trace i ≠ [] := by
    intro none
    have whole := ended.whole i
    rw [none] at whole
    exact absurd whole proper.ne
  obtain ⟨x, rest, shape⟩ := List.exists_cons_of_ne_nil long
  refine ⟨x, _, by rw [shape]; rfl, List.getLast?_eq_some_getLast long, ?_, ?_⟩
  · rw [first, shape]
    rfl
  · rw [done, List.getLast?_eq_some_getLast long]
    rfl

/-- The length of a trace, job by job. -/
theorem length_times [Fintype ι] [DecidableEq ι] (trace : List (Tick ι)) :
    trace.length = ∑ k, (times trace k).length := by
  induction trace using List.reverseRecOn with
  | nil => simp [times]
  | append_singleton trace x ih =>
    have split (k : ι) : (times (trace ++ [x]) k).length = (times trace k).length + if x.job = k then 1 else 0 := by
      rw [times_snoc, List.length_append]
      split <;> rfl
    simp [split, Finset.sum_add_distrib, ih]

/-- The metrics as `simulate` returns them. -/
def State.metrics (w : Workload n) (t : State n) (i : Fin n) : Metrics where
  response := ((t.entries i).first.getD 0 : Int) - w.arrival i
  turnaround := ((t.entries i).done.getD 0 : Int) - w.arrival i
  maxReadyWait := (t.entries i).maxWait

def State.outcome (w : Workload n) (t : State n) : Report n where
  jobs := t.metrics w
  switches := t.switches
  events := t.events.map w.labelEvent
  trace := t.trace.map w.label

theorem Ended.report (ended : Ended w t) : w.report t = .ok (t.outcome w) := by
  have total : t.trace.length = ∑ i, w.service i := by
    rw [length_times]
    exact Finset.sum_congr rfl fun i _ => ended.whole i
  have found : ¬ ∃ i, (t.entries i).first = none ∨ (t.entries i).done = none := by
    rintro ⟨i, missing⟩
    rcases Nat.eq_zero_or_pos (w.service i) with zero | proper
    · obtain ⟨first, done⟩ := ended.empty zero
      simp [first, done] at missing
    · obtain ⟨x, y, -, -, first, done⟩ := ended.endpoints proper
      simp [first, done] at missing
  unfold Workload.report
  rw [if_neg (not_not.mpr total), if_neg found]
  rfl

/-! ### The value of `simulate` -/

theorem leads_returns (leads : w.Leads policy period (w.start period) t) :
    Ended w t ∧ w.Returns policy period (t.outcome w) := by
  obtain ⟨t', leads', head, stopped⟩ := schedule_ends w policy period
  cases leads.unique leads'
  have ended := head.ended stopped
  exact ⟨ended, t, leads, ended.report⟩

theorem times_label (w : Workload n) (trace : List (Tick (Fin n))) (i : Fin n) :
    times (trace.map w.label) (w.name i) = times trace i := by
  unfold times
  rw [List.filter_map, List.map_map]
  have same : trace.filter ((fun x => decide (x.job = w.name i)) ∘ w.label) =
      trace.filter fun x => decide (x.job = i) := by
    apply List.filter_congr
    intro x _
    rw [Bool.eq_iff_iff]
    simp only [Function.comp_apply, decide_eq_true_eq]
    exact w.distinct.eq_iff
  rw [same]
  rfl

/-- A schedule of the workload: every tick at its time, every wait respected,
and nobody left waiting while nothing runs. -/
structure Valid (w : Workload n) (r : Report n) : Prop where
  known : ∀ x ∈ r.trace, ∃ i, x.job = w.name i
  increasing : r.trace.Pairwise fun x y => x.time < y.time
  complete : ∀ i, (times r.trace (w.name i)).length = w.service i
  arrived : ∀ i, ∀ x ∈ times r.trace (w.name i), w.arrival i ≤ x
  empty : ∀ i, w.service i = 0 → (r.jobs i).response = 0 ∧ (r.jobs i).turnaround = 0
  metrics : ∀ i, 0 < w.service i → ∃ first last, (times r.trace (w.name i)).head? = some first ∧
    (times r.trace (w.name i)).getLast? = some last ∧
    (r.jobs i).response = (first : Int) - w.arrival i ∧
    (r.jobs i).turnaround = (last : Int) + 1 - w.arrival i
  waits : ∀ i k x y, w.burst i ∣ k + 1 → (times r.trace (w.name i))[k]? = some x →
    (times r.trace (w.name i))[k + 1]? = some y → x + (w.wait i + 1) ≤ y
  slow : ∀ i, 0 < w.burst i →
    (w.service i : Int) + w.wait i * (((w.service i : Int) - 1) / w.burst i) ≤ (r.jobs i).turnaround
  conserving : ∀ τ, (∃ x ∈ r.trace, τ < x.time) → (∀ x ∈ r.trace, x.time ≠ τ) → ∀ i,
    τ < w.arrival i ∨ Rests w i (times r.trace (w.name i)) τ ∨ w.arrival i + (r.jobs i).turnaround ≤ τ

theorem Kept.times_ordered (kept : Kept w s) (i : Fin n) : (times s.trace i).Pairwise (· < ·) :=
  List.pairwise_map.mpr (kept.ordered.sublist List.filter_sublist)

/-- No tick of a job comes after the job is done. -/
theorem Ended.done_last (ended : Ended w t) (member : x ∈ t.trace) :
    ∃ d, (t.entries x.job).done = some d ∧ x.time < d := by
  have mine : x.time ∈ times t.trace x.job := mem_times.mpr ⟨x, member, rfl, rfl⟩
  have proper : 0 < w.service x.job := by
    rw [← ended.whole]
    exact List.length_pos_of_mem mine
  obtain ⟨-, y, -, last, -, done⟩ := ended.endpoints proper
  obtain ⟨front, shape⟩ := List.getLast?_eq_some_iff.mp last
  have sorted := ended.toKept.times_ordered x.job
  refine ⟨y + 1, done, Nat.lt_succ_of_le ?_⟩
  rw [shape] at mine sorted
  rcases List.mem_append.mp mine with before | same
  · exact ((List.pairwise_append.mp sorted).2.2 _ before y List.mem_cons_self).le
  · exact (List.mem_singleton.mp same).le

/-- Every whole burst costs its wait. -/
theorem Kept.slow (kept : Kept w s) (inside : k < (times s.trace i).length) :
    w.arrival i + k + w.wait i * (k / w.burst i) ≤ (times s.trace i)[k] := by
  have fits := kept.fits i
  induction k with
  | zero =>
    have first := (fits.past _ (List.getElem_mem inside)).1
    simpa using first
  | succ k ih =>
    have before := ih (Nat.lt_of_succ_lt inside)
    rw [Nat.succ_div]
    split
    · rename_i whole
      have paced := fits.paced k inside whole
      rw [Nat.mul_add]
      omega
    · have next := List.pairwise_iff_getElem.mp (kept.times_ordered i) k (k + 1) (Nat.lt_of_succ_lt inside) inside
        (Nat.lt_succ_self k)
      rw [Nat.add_zero (k / w.burst i)]
      omega

theorem Ended.slow (ended : Ended w t) (positive : 0 < w.burst i) :
    (w.service i : Int) + w.wait i * (((w.service i : Int) - 1) / w.burst i) ≤ (t.metrics w i).turnaround := by
  rcases Nat.eq_zero_or_pos (w.service i) with zero | proper
  · have before : ((w.service i : Int) - 1) / w.burst i ≤ 0 :=
      Int.ediv_nonpos_of_nonpos_of_neg (by omega) (by omega)
    have product : (w.wait i : Int) * (((w.service i : Int) - 1) / w.burst i) ≤ 0 :=
      Int.mul_nonpos_of_nonneg_of_nonpos (by omega) before
    obtain ⟨-, done⟩ := ended.empty zero
    simp only [State.metrics, done, Option.getD_some]
    omega
  · obtain ⟨x, y, -, last, -, done⟩ := ended.endpoints proper
    have whole := ended.whole i
    have inside : w.service i - 1 < (times t.trace i).length := by omega
    have growth := ended.toKept.slow inside
    rw [List.getLast?_eq_getElem?, whole, List.getElem?_eq_getElem inside] at last
    rw [Option.some.inj last] at growth
    have minus : ((w.service i : Int) - 1) = ((w.service i - 1 : Nat) : Int) := by omega
    have cast : (w.wait i : Int) * (((w.service i - 1 : Nat) : Int) / w.burst i) =
        ((w.wait i * ((w.service i - 1) / w.burst i) : Nat) : Int) := by
      rw [Nat.cast_mul, Int.natCast_ediv]
    simp only [State.metrics, done, Option.getD_some]
    rw [minus, cast]
    omega

theorem Ended.valid (ended : Ended w t) : Valid w (t.outcome w) := by
  have own (i : Fin n) : times (t.outcome w).trace (w.name i) = times t.trace i := times_label w t.trace i
  refine ⟨?_, ?_, fun i => ?_, fun i => ?_, fun i zero => ?_, fun i proper => ?_, fun i k x y whole => ?_,
    fun i => ended.slow, ?_⟩
  · intro x member
    obtain ⟨y, -, rfl⟩ := List.mem_map.mp member
    exact ⟨y.job, rfl⟩
  · exact List.pairwise_map.mpr ended.ordered
  · rw [own]
    exact ended.whole i
  · rw [own]
    exact fun x member => ((ended.fits i).past x member).1
  · obtain ⟨first, done⟩ := ended.empty zero
    simp [State.outcome, State.metrics, first, done]
  · obtain ⟨x, y, head, last, first, done⟩ := ended.endpoints proper
    rw [own]
    refine ⟨x, y, head, last, ?_, ?_⟩
    · simp [State.outcome, State.metrics, first]
    · simp [State.outcome, State.metrics, done]
  · rw [own]
    intro this next
    obtain ⟨inside, rfl⟩ := List.getElem?_eq_some_iff.mp next
    obtain ⟨-, rfl⟩ := List.getElem?_eq_some_iff.mp this
    have paced := (ended.fits i).paced k inside whole
    omega
  · rintro τ ⟨x, member, before⟩ gap i
    obtain ⟨y, inside, rfl⟩ := List.mem_map.mp member
    have early : τ < t.now := lt_trans before (ended.toKept.past y inside)
    rw [own]
    by_cases here : w.arrival i ≤ τ
    · have outside : ∀ z ∈ t.trace, z.time ≠ τ := fun z among => gap (w.label z) (List.mem_map_of_mem among)
      rcases ended.idle τ early outside i here with ⟨d, past, done⟩ | rests
      · refine .inr (.inr ?_)
        simp only [State.outcome, State.metrics, done, Option.getD_some]
        omega
      · exact .inr (.inl rests)
    · exact .inl (not_le.mp here)

/-- The workloads `simulate` accepts. -/
structure Accepted (jobs : Fin n → Job) : Prop where
  named : Function.Injective fun i => (jobs i).name
  proper : ∀ i, 0 ≤ (jobs i).arrival ∧ 0 ≤ (jobs i).service ∧ 0 ≤ (jobs i).burst ∧ 0 ≤ (jobs i).wait ∧
    ((jobs i).wait ≠ 0 → (jobs i).burst ≠ 0)

/-- The workload holds the jobs. -/
structure Holds (w : Workload n) (jobs : Fin n → Job) : Prop where
  name : ∀ i, w.name i = (jobs i).name
  arrival : ∀ i, (w.arrival i : Int) = (jobs i).arrival
  service : ∀ i, (w.service i : Int) = (jobs i).service
  burst : ∀ i, (w.burst i : Int) = (jobs i).burst
  wait : ∀ i, (w.wait i : Int) = (jobs i).wait

theorem validate_accepts (accepted : Accepted jobs) : ∃ w, validate jobs = .ok w ∧ Holds w jobs := by
  unfold validate
  rw [dif_pos accepted.named, dif_pos accepted.proper]
  refine ⟨_, rfl, fun i => rfl, fun i => ?_, fun i => ?_, fun i => ?_, fun i => ?_⟩ <;>
    obtain ⟨arrival, service, burst, wait, -⟩ := accepted.proper i
  · exact Int.toNat_of_nonneg arrival
  · exact Int.toNat_of_nonneg service
  · exact Int.toNat_of_nonneg burst
  · exact Int.toNat_of_nonneg wait

/-- More turns than enough leave the value as it is. -/
theorem simulate_more {period : Int} {value : Except Failure (Report n)}
    (ran : simulate fuel jobs policy period = some value) (more : fuel ≤ fuel') :
    simulate fuel' jobs policy period = some value := by
  unfold Mlfq.simulate at ran ⊢
  by_cases refused : period ≤ 0
  · rwa [if_pos refused] at ran ⊢
  · rw [if_neg refused] at ran ⊢
    cases valid : validate jobs with
    | error failure => simpa [valid] using ran
    | ok w =>
      rw [valid] at ran
      obtain ⟨ended, looped, made⟩ := Option.map_eq_some_iff.mp ran
      simp only [loop_more looped more, Option.map_some]
      exact congrArg some made

theorem Returns.simulate (accepted : validate jobs = .ok w) (positive : 0 < period)
    (returns : w.Returns policy period r) :
    ∃ bound, ∀ fuel ≥ bound, simulate fuel jobs policy period = some (.ok r) := by
  obtain ⟨t, leads, made⟩ := returns
  obtain ⟨bound, ran⟩ := leads.loop
  refine ⟨bound, fun fuel more => simulate_more ?_ more⟩
  have valid : ¬ (period : Int) ≤ 0 := by omega
  unfold Mlfq.simulate
  rw [if_neg valid, accepted]
  simp only [Int.toNat_natCast, ran, Option.map_some]
  exact congrArg some made

/-- `simulate` ends, and this is its value. -/
def Simulates (jobs : Fin n → Job) (policy : Policy) (period : Nat) (r : Report n) : Prop :=
  ∃ bound, ∀ fuel ≥ bound, simulate fuel jobs policy period = some (.ok r)

theorem Simulates.value {value : Except Failure (Report n)} (simulates : Simulates jobs policy period r)
    (ran : simulate fuel jobs policy period = some value) : value = .ok r := by
  obtain ⟨bound, enough⟩ := simulates
  have more := simulate_more ran (Nat.le_max_right bound fuel)
  rw [enough _ (Nat.le_max_left bound fuel)] at more
  exact (Option.some.inj more).symm

/-- For every workload it accepts, both policies and every positive boost
period, `simulate` returns, and what it returns is a valid schedule that never
idles while somebody is ready. -/
theorem mlfq_valid (jobs : Fin n → Job) (policy : Policy) (period : Nat) (accepted : Accepted jobs)
    (positive : 0 < period) :
    ∃ w r, Holds w jobs ∧ (∃ bound, ∀ fuel ≥ bound, simulate fuel jobs policy period = some (.ok r)) ∧
      Valid w r := by
  obtain ⟨w, valid, holds⟩ := validate_accepts accepted
  obtain ⟨t, leads, -⟩ := schedule_ends w policy period
  obtain ⟨ended, returns⟩ := leads_returns leads
  exact ⟨w, _, holds, Returns.simulate valid positive returns, ended.valid⟩

/-- The jobs the module runs. -/
def course : Fin 4 → Job :=
  ![⟨"compute", 0, 60, 0, 0⟩, ⟨"short", 5, 3, 0, 0⟩, ⟨"io", 0, 12, 2, 6⟩, ⟨"yield", 0, 30, 1, 0⟩]

theorem course_accepted : Accepted course := ⟨by decide, by decide⟩

theorem mlfq_valid_course : ∃ w r, Holds w course ∧
    (∃ bound, ∀ fuel ≥ bound, simulate fuel course .mlfq 40 = some (.ok r)) ∧ Valid w r :=
  mlfq_valid course .mlfq 40 course_accepted (by decide)

end Neonos.Mlfq
