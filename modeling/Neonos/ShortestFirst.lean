import Mathlib
import Neonos.NonPreemptive
import Neonos.SchedulingTable

/-! When all jobs arrive together SJF runs them shortest first, and nobody
completes jobs earlier in total. -/
namespace Neonos.Scheduling
open StableChoice WhileLoop OneMachine

variable {w : Workload n} {policy : Policy} {quantum base : Nat} {s t : State n} {i j : Fin n}

/-! ### The order SJF takes -/

/-- Shorter jobs before longer ones, those that have run before those that wait. -/
structure Shortest (w : Workload n) (s : State n) : Prop extends Serial w s where
  started : s.pending = [] ∨ s.ready = [] ∧ s.trace = []
  sorted : (s.trace.map Slice.job).Pairwise fun i j => w.service i ≤ w.service j
  ahead : ∀ i ∈ s.trace.map Slice.job, ∀ j ∈ s.ready, w.service i ≤ w.service j

theorem start_shortest (w : Workload n) : Shortest w w.start :=
  ⟨start_serial w, .inr ⟨rfl, rfl⟩, List.Pairwise.nil, nofun⟩

/-- The first arrival brings everybody. -/
theorem Shortest.all_here (shortest : Shortest w s) (together : ∀ i, w.arrival i = base)
    (head : AtHead w s) (going : s.Going) : (w.arrive (w.jump s)).pending = [] := by
  obtain ⟨jumped, -, -⟩ := head.jump going
  obtain ⟨-, -, -, pending, -⟩ := arrive_arrived w (w.jump s)
  rw [pending, jumped.left, (jump_other w s).2.2.1, List.filter_eq_nil_iff]
  intro i member
  rcases jump_cases (w := w) going with ⟨some, -⟩ | ⟨k, rest, -, -, same⟩
  · rcases shortest.started with none | ⟨nobody, -⟩
    · rw [none] at member
      cases member
    · exact absurd nobody some
  · simp [same, together]

/-- The slice SJF serves: nobody who has run was longer, nobody who waits is shorter. -/
theorem Shortest.serves (shortest : Shortest w s) (kept : Kept w s) (going : s.Going)
    (serves : Serves w .sjf quantum s a t i rest) :
    (∀ k ∈ s.trace.map Slice.job, ∀ j ∈ a.ready, w.service k ≤ w.service j) ∧
      ∀ j ∈ a.ready, w.service i ≤ w.service j := by
  obtain ⟨perm, -, -, takes⟩ := select_some serves.chosen
  have all (j : Fin n) (waits : j ∈ a.ready) : a.remaining j = w.service j := by
    have more := (serves.sound.waiting j (.inl waits)).2.1
    rw [serves.remaining] at more ⊢
    exact (shortest.toSerial.whole kept.recorded more).2
  constructor
  · intro k ran j waits
    by_cases nobody : s.ready = []
    · rcases shortest.started with none | ⟨-, fresh⟩
      · simp [State.Going, nobody, none] at going
      · rw [fresh] at ran
        cases ran
    · rw [(serves.same nobody).2] at waits
      exact shortest.ahead k ran j waits
  · intro j waits
    have mine : i ∈ a.ready := perm.mem_iff.mpr (by simp)
    have least := (takes rfl).least waits
    rw [← all i mine, ← all j waits]
    exact (Prod.Lex.toLex_le_toLex.mp least).elim le_of_lt fun tie => tie.1.le

theorem Shortest.pass (shortest : Shortest w s) (together : ∀ i, w.arrival i = base)
    (kept : Kept w s) (going : s.Going) : Shortest w (w.pass .sjf quantum s) := by
  have here := shortest.all_here together kept.head going
  have serial : Serial w (w.pass .sjf quantum s) :=
    shortest.toSerial.pass kept going (by decide)
  rcases kept.head.turn going .sjf quantum with idles | ⟨a, i, rest, serves⟩
  · refine ⟨serial, .inl ?_, ?_, ?_⟩
    · rw [idles.arrived, here]
    · rw [idles.trace]
      exact shortest.sorted
    · rw [idles.ready]
      exact fun _ _ => nofun
  · obtain ⟨trace, -, -, -, -, remaining⟩ := shortest.toSerial.serves kept going (by decide) serves
    obtain ⟨longer, shorter⟩ := shortest.serves kept going serves
    have perm := (select_some serves.chosen).1
    have none : a.pending = [] := serves.arrived ▸ here
    have queue : (w.pass .sjf quantum s).ready = rest := by
      rw [serves.ready, none, remaining, Function.update_self]
      simp
    have mine : i ∈ a.ready := perm.mem_iff.mpr (by simp)
    refine ⟨serial, .inl ?_, ?_, ?_⟩
    · rw [serves.pending, none]
      rfl
    · rw [trace, List.map_append]
      refine List.pairwise_append.mpr ⟨shortest.sorted, List.pairwise_singleton _ _, ?_⟩
      intro k ran j last
      rw [List.mem_singleton.mp last]
      exact longer k ran i mine
    · rw [trace, List.map_append, queue]
      intro k ran j waits
      have behind : j ∈ a.ready := perm.mem_iff.mpr (List.mem_cons_of_mem i waits)
      rcases List.mem_append.mp ran with before | last
      · exact longer k before j behind
      · rw [List.mem_singleton.mp last]
        exact shorter j behind

theorem leads_shortest (together : ∀ i, w.arrival i = base) (positive : 0 < quantum)
    (leads : w.Leads .sjf quantum w.start t) : Shortest w t := by
  have start : Kept w w.start ∧ Shortest w w.start := ⟨start_kept w, start_shortest w⟩
  obtain ⟨t', same, ⟨-, shortest⟩, -⟩ := leads.invariant
    (fun s (kept : Kept w s ∧ Shortest w s) going =>
      ⟨_, rfl, kept.1.pass going positive, kept.2.pass together kept.1 going⟩) start
  rw [Except.ok.inj same]
  exact shortest

/-! ### Sums -/

/-- Jobs that are all there done back to back. -/
theorem oneServer_sums (w : Workload n) (together : ∀ i, w.arrival i = base) (later : base ≤ free)
    (line : List (Fin n)) :
    ((w.oneServer free line).map fun x => x.stop - base).sum =
        total (free - base) (line.map w.service) ∧
      ((w.oneServer free line).map fun x => x.start - base).sum + (line.map w.service).sum =
        total (free - base) (line.map w.service) := by
  induction line generalizing free with
  | nil => exact ⟨rfl, rfl⟩
  | cons i line ih =>
    have start : max free (w.arrival i) = free := by
      rw [together]
      exact max_eq_left later
    obtain ⟨stops, starts⟩ := ih (by omega : base ≤ free + w.service i)
    have moved : free + w.service i - base = free - base + w.service i := by omega
    rw [moved] at stops starts
    simp only [Workload.oneServer, start, List.map_cons, List.sum_cons, total]
    omega

theorem oneServer_base (w : Workload n) (together : ∀ i, w.arrival i = base) (line : List (Fin n)) :
    w.oneServer 0 line = w.oneServer base line := by
  cases line with
  | nil => rfl
  | cons i line => simp [Workload.oneServer, together]

theorem total_zeros (zeros : ∀ p ∈ front, p = 0) (line : List Nat) :
    total 0 (front ++ line) = total 0 line := by
  induction front with
  | nil => rfl
  | cons p front ih =>
    obtain rfl := zeros p List.mem_cons_self
    rw [List.cons_append, total, ih fun q member => zeros q (List.mem_cons_of_mem 0 member)]
    exact Nat.zero_add _

/-- When a job was finished. -/
def State.finish (t : State n) (i : Fin n) : Nat := (t.done i).getD 0

def State.begin_ (t : State n) (i : Fin n) : Nat := (t.first i).getD 0

/-- The sums over all jobs that `simulate` returns. -/
theorem Ended.sums (ended : Ended w t) (together : ∀ i, w.arrival i = base) :
    ∑ i, (t.metrics w i).turnaround = ((∑ i, (t.finish i - base) : Nat) : Int) ∧
      ∑ i, (t.metrics w i).response = ((∑ i, (t.begin_ i - base) : Nat) : Int) := by
  rw [Nat.cast_sum, Nat.cast_sum]
  constructor
  all_goals
    apply Finset.sum_congr rfl
    intro i _
    obtain ⟨f, d, first, done, after, before⟩ := ended.bounds i
    simp only [State.metrics, State.finish, State.begin_, first, done, Option.getD_some]
    rw [together] at after ⊢
    omega

/-- Every schedule of jobs that are all there takes at least as long in total as
the shortest first order. -/
theorem Ended.total_le (ended : Ended w t) (together : ∀ i, w.arrival i = base) :
    ∃ line : List (Fin n), line.Perm (List.finRange n) ∧
      total 0 (line.map w.service) ≤ ∑ i, (t.finish i - base) := by
  have total_ : Std.Total fun i j : Fin n => t.finish i ≤ t.finish j := ⟨fun i j => le_total _ _⟩
  have trans : IsTrans (Fin n) fun i j => t.finish i ≤ t.finish j := ⟨fun i j k => le_trans⟩
  have perm := List.perm_insertionSort (fun i j => t.finish i ≤ t.finish j) (List.finRange n)
  refine ⟨_, perm, ?_⟩
  have least := ended.table.total_le base t.finish (perm.nodup_iff.mpr (List.nodup_finRange n))
    (List.pairwise_insertionSort _ _) ?_ ?_
  · rw [Fin.sum_univ_def, ← (perm.map _).sum_eq]
    exact least
  · intro e member
    exact together e.2 ▸ ended.table.arrived e member
  · intro e member
    obtain ⟨x, inside, -, before, job⟩ := mem_unitTicks.mp member
    obtain ⟨d, done, last⟩ := ended.done_last inside
    rw [job, State.finish, done]
    exact before.trans_le last

/-- Jobs without work in front, the others in the order they ran. -/
def State.order (w : Workload n) (t : State n) : List (Fin n) :=
  (List.finRange n).filter (fun i => w.service i = 0) ++ t.trace.map Slice.job

theorem Serial.order_perm (serial : Serial w t) (ended : Ended w t) :
    (t.order w).Perm (List.finRange n) := by
  have ran (i : Fin n) : i ∈ t.trace.map Slice.job ↔ 0 < w.service i := by
    constructor
    · intro member
      obtain ⟨x, inside, rfl⟩ := List.mem_map.mp member
      exact ended.proper inside
    · intro proper
      obtain ⟨x, -, head, -⟩ := ended.endpoints proper
      obtain ⟨inside, rfl⟩ := mem_own.mp (List.mem_of_head? head)
      exact List.mem_map_of_mem inside
  have zero (i : Fin n) : i ∈ (List.finRange n).filter (fun i => w.service i = 0) ↔ w.service i = 0 := by
    simp
  have distinct : (t.order w).Nodup := by
    refine List.nodup_append.mpr ⟨(List.nodup_finRange n).filter _, serial.distinct, ?_⟩
    rintro i first j second rfl
    have none := (zero i).mp first
    have some := (ran i).mp second
    omega
  refine (List.perm_ext_iff_of_nodup distinct (List.nodup_finRange n)).mpr fun i => ?_
  rw [State.order, List.mem_append, zero, ran]
  simp only [List.mem_finRange, iff_true]
  omega

/-- A job that runs whole begins and ends with its slice. -/
theorem Serial.endpoints (serial : Serial w t) (ended : Ended w t) (member : x ∈ t.trace) :
    t.begin_ x.job = x.start ∧ t.finish x.job = x.stop := by
  obtain ⟨y, z, head, last, first, done, -⟩ := ended.endpoints (ended.proper member)
  have only (y : Slice (Fin n)) (among : y ∈ own t.trace x.job) : y = x := by
    obtain ⟨inside, same⟩ := mem_own.mp among
    exact List.inj_on_of_nodup_map serial.distinct inside member same
  rw [only y (List.mem_of_head? head)] at first
  rw [only z (List.mem_of_getLast? last)] at done
  simp [State.begin_, State.finish, first, done]

/-- The sums of one server that is given whole jobs. -/
theorem Serial.sums (serial : Serial w t) (ended : Ended w t) (together : ∀ i, w.arrival i = base) :
    ∑ i, (t.finish i - base) = total 0 ((t.order w).map w.service) ∧
      ∑ i, (t.begin_ i - base) + ∑ i, w.service i = total 0 ((t.order w).map w.service) := by
  obtain ⟨stops, starts⟩ := oneServer_sums w together le_rfl (t.trace.map Slice.job)
  rw [← oneServer_base w together, ← serial.recursion, Nat.sub_self] at stops starts
  have zero (f : Fin n → Nat) (none : ∀ i, w.service i = 0 → f i = 0) :
      ∑ i, f i = ((t.trace.map Slice.job).map f).sum := by
    have front : (((List.finRange n).filter fun i => w.service i = 0).map f).sum = 0 := by
      apply List.sum_eq_zero
      intro p member
      obtain ⟨i, inside, rfl⟩ := List.mem_map.mp member
      exact none i (by simpa using inside)
    rw [Fin.sum_univ_def, ← ((serial.order_perm ended).map f).sum_eq, State.order, List.map_append,
      List.sum_append, front, Nat.zero_add]
  have empty (i : Fin n) (none : w.service i = 0) : t.finish i - base = 0 ∧ t.begin_ i - base = 0 := by
    rcases ended.empty i none with coming | ⟨first, done⟩
    · rw [ended.drained] at coming
      cases coming
    · simp [State.finish, State.begin_, first, done, together]
  have order : total 0 ((t.order w).map w.service) = total 0 ((t.trace.map Slice.job).map w.service) := by
    rw [State.order, List.map_append]
    apply total_zeros
    intro p member
    obtain ⟨i, inside, rfl⟩ := List.mem_map.mp member
    simpa using inside
  have finish : (t.trace.map Slice.job).map (fun i => t.finish i - base) =
      t.trace.map fun x => x.stop - base := by
    rw [List.map_map]
    apply List.map_congr_left
    intro x member
    rw [Function.comp_apply, (serial.endpoints ended member).2]
  have begin_ : (t.trace.map Slice.job).map (fun i => t.begin_ i - base) =
      t.trace.map fun x => x.start - base := by
    rw [List.map_map]
    apply List.map_congr_left
    intro x member
    rw [Function.comp_apply, (serial.endpoints ended member).1]
  rw [order, zero _ fun i none => (empty i none).1, zero _ fun i none => (empty i none).2,
    zero _ fun i none => none, finish, begin_]
  exact ⟨stops, starts⟩

theorem Shortest.order_sorted (shortest : Shortest w t) :
    ((t.order w).map w.service).Pairwise (· ≤ ·) := by
  rw [State.order, List.map_append]
  refine List.pairwise_append.mpr ⟨?_, List.pairwise_map.mpr shortest.sorted, ?_⟩
  · apply List.pairwise_of_forall_mem_list
    intro p first q _
    obtain ⟨i, inside, rfl⟩ := List.mem_map.mp first
    simp only [List.mem_filter, decide_eq_true_eq] at inside
    omega
  · intro p first q _
    obtain ⟨i, inside, rfl⟩ := List.mem_map.mp first
    simp only [List.mem_filter, decide_eq_true_eq] at inside
    omega

theorem oneServer_late (member : x ∈ w.oneServer free line) :
    w.arrival x.job ≤ x.start ∧ x.start ≤ x.stop := by
  induction line generalizing free with
  | nil => cases member
  | cons i line ih =>
    rcases List.mem_cons.mp member with rfl | later
    · exact ⟨le_max_right _ _, Nat.le_add_right _ _⟩
    · exact ih later

theorem sum_cast (line : List α) {f : α → Nat} {g : α → Int} (same : ∀ a ∈ line, g a = f a) :
    (line.map g).sum = ((line.map f).sum : Nat) := by
  rw [Nat.cast_list_sum, List.map_map, List.map_congr_left same]
  rfl

/-- Turnarounds and responses of jobs that are done back to back. -/
theorem oneServer_metrics (w : Workload n) (together : ∀ i, w.arrival i = base) (line : List (Fin n)) :
    ((w.oneServer 0 line).map fun x => (x.stop : Int) - w.arrival x.job).sum =
        (total 0 (line.map w.service) : Nat) ∧
      ((w.oneServer 0 line).map fun x => (x.start : Int) - w.arrival x.job).sum +
        (line.map w.service).sum = (total 0 (line.map w.service) : Nat) := by
  obtain ⟨stops, starts⟩ := oneServer_sums w together le_rfl line
  rw [← oneServer_base w together, Nat.sub_self] at stops starts
  have stop : ∀ x ∈ w.oneServer 0 line, (x.stop : Int) - w.arrival x.job = (x.stop - base : Nat) := by
    intro x member
    have late := oneServer_late member
    rw [together] at late ⊢
    omega
  have start : ∀ x ∈ w.oneServer 0 line, (x.start : Int) - w.arrival x.job = (x.start - base : Nat) := by
    intro x member
    have late := oneServer_late member
    rw [together] at late ⊢
    omega
  rw [sum_cast _ stop, sum_cast _ start, stops, ← starts]
  exact ⟨rfl, (Nat.cast_add _ _).symm⟩

/-- Non-preemptive SJF is optimal when all jobs arrive together: neither running
the jobs back to back in any order nor any of the simulated policies has a
smaller sum of turnarounds, and no order has a smaller sum of responses. -/
theorem sjf_optimal (w : Workload n) (together : ∀ i j, w.arrival i = w.arrival j) (quantum : Nat)
    (positive : 0 < quantum) : ∃ r, w.Returns .sjf quantum r ∧
      (∀ line, line.Perm (List.finRange n) →
        ∑ i, (r.result i).turnaround ≤
            ((w.oneServer 0 line).map fun x => (x.stop : Int) - w.arrival x.job).sum ∧
          ∑ i, (r.result i).response ≤
            ((w.oneServer 0 line).map fun x => (x.start : Int) - w.arrival x.job).sum) ∧
      ∀ policy quantum' r', 0 < quantum' → w.Returns policy quantum' r' →
        ∑ i, (r.result i).turnaround ≤ ∑ i, (r'.result i).turnaround := by
  obtain ⟨base, common⟩ : ∃ base, ∀ i, w.arrival i = base := by
    cases n with
    | zero => exact ⟨0, nofun⟩
    | succ n => exact ⟨w.arrival 0, fun i => together i 0⟩
  obtain ⟨t, leads, -⟩ := schedule_ends w .sjf positive
  obtain ⟨ended, returns⟩ := leads_returns positive leads
  have shortest := leads_shortest common positive leads
  obtain ⟨turnarounds, responses⟩ := ended.sums common
  obtain ⟨stops, starts⟩ := shortest.toSerial.sums ended common
  have perm := shortest.toSerial.order_perm ended
  have best (line : List (Fin n)) (whole : line.Perm (List.finRange n)) :
      total 0 ((t.order w).map w.service) ≤ total 0 (line.map w.service) :=
    total_sorted_le shortest.order_sorted ((perm.trans whole.symm).map _)
  refine ⟨_, returns, fun line whole => ?_, fun policy quantum' r' positive' returns' => ?_⟩
  · obtain ⟨stop, start⟩ := oneServer_metrics w common line
    have least := best line whole
    have work : (line.map w.service).sum = ∑ i, w.service i := by
      rw [Fin.sum_univ_def]
      exact (whole.map _).sum_eq
    dsimp only
    rw [turnarounds, responses, stop]
    omega
  · obtain ⟨t', leads', ended', rfl⟩ := returns_ended positive' returns'
    obtain ⟨turnarounds', -⟩ := ended'.sums common
    obtain ⟨line, whole, least⟩ := ended'.total_le common
    have less := best line whole
    dsimp only
    rw [turnarounds, turnarounds']
    omega

theorem sjf_optimal_lesson : ∃ r, lesson.Returns .sjf 2 r ∧
    ∀ policy quantum r', 0 < quantum → lesson.Returns policy quantum r' →
      ∑ i, (r.result i).turnaround ≤ ∑ i, (r'.result i).turnaround := by
  obtain ⟨r, returns, -, least⟩ := sjf_optimal lesson (by decide) 2 (by decide)
  exact ⟨r, returns, least⟩

end Neonos.Scheduling
