import Mathlib
import Neonos.SchedulingTrace

/-! Reordering the input. The scheduling simulator knows a job by its place in
the input, so two runs on the same jobs in another order share no state; where
no two jobs arrive together, they are one run up to the renaming of places. -/
namespace Neonos.Scheduling
open StableChoice WhileLoop SortedLine

variable {w w' : Workload n} {s s' : State n} {σ : Equiv.Perm (Fin n)}

/-- `w'` has at place `i` the job that `w` has at `σ i`. -/
structure Reordered (σ : Equiv.Perm (Fin n)) (w w' : Workload n) : Prop where
  name : ∀ i, w'.name i = w.name (σ i)
  arrival : ∀ i, w'.arrival i = w.arrival (σ i)
  service : ∀ i, w'.service i = w.service (σ i)
  apart : Function.Injective w.arrival

def Slice.renamed (f : ι → κ) (x : Slice ι) : Slice κ := ⟨f x.job, x.start, x.stop⟩

/-- The two runs are in the same state, each under its own places. -/
structure Renamed (σ : Equiv.Perm (Fin n)) (s s' : State n) : Prop where
  now : s.now = s'.now
  pending : s.pending = s'.pending.map σ
  ready : s.ready = s'.ready.map σ
  remaining : ∀ i, s.remaining (σ i) = s'.remaining i
  first : ∀ i, s.first (σ i) = s'.first i
  done : ∀ i, s.done (σ i) = s'.done i
  trace : s.trace = s'.trace.map (Slice.renamed σ)

theorem update_renamed {f f' : Fin n → α} (same : ∀ i, f (σ i) = f' i) (k : Fin n) (x : α) (i : Fin n) :
    Function.update f (σ k) x (σ i) = Function.update f' k x i := by
  by_cases mine : i = k
  · rw [mine, Function.update_self, Function.update_self]
  · rw [Function.update_of_ne mine, Function.update_of_ne fun image => mine (σ.injective image)]
    exact same i

/-! ### The parts of a pass -/

/-- Where arrivals differ, `pending` is sorted by arrival alone. -/
theorem start_sorted (w : Workload n) (apart : Function.Injective w.arrival) :
    w.start.pending.Pairwise fun i j => w.arrival i < w.arrival j := by
  have tells : Function.Injective w.joins := fun i j same => congrArg (fun key => (ofLex key).2) same
  refine (insertionSort_strict tells (List.nodup_finRange n)).imp ?_
  intro i j before
  rcases Prod.Lex.toLex_lt_toLex.mp before with earlier | ⟨together, places⟩
  · exact earlier
  · exact absurd (apart together) places.ne

theorem Reordered.start (reordered : Reordered σ w w') : Renamed σ w.start w'.start := by
  have apart : Function.Injective w'.arrival := by
    intro i j same
    rw [reordered.arrival, reordered.arrival] at same
    exact σ.injective (reordered.apart same)
  have everybody (v : Workload n) (i : Fin n) : i ∈ v.start.pending := by
    simp [Workload.start, List.mem_insertionSort]
  refine ⟨rfl, ?_, rfl, fun i => (reordered.service i).symm, fun i => rfl, fun i => rfl, rfl⟩
  apply eq_of_mem_iff (start_sorted w reordered.apart)
  · refine List.pairwise_map.mpr ((start_sorted w' apart).imp ?_)
    intro i j before
    rwa [← reordered.arrival, ← reordered.arrival]
  · intro i
    refine iff_of_true (everybody w i) (List.mem_map.mpr ⟨σ.symm i, everybody w' _, ?_⟩)
    exact σ.apply_symm_apply i

theorem Reordered.receive (reordered : Reordered σ w w') (renamed : Renamed σ s s') (i : Fin n)
    (rest : List (Fin n)) : Renamed σ (w.receive s (σ i) (rest.map σ)) (w'.receive s' i rest) := by
  obtain ⟨now, -, ready, remaining, first, done, trace⟩ := renamed
  unfold Workload.receive
  rw [reordered.service i, reordered.arrival i]
  by_cases zero : w.service (σ i) = 0
  · rw [if_pos zero, if_pos zero]
    exact ⟨now, rfl, ready, remaining, update_renamed first i _, update_renamed done i _, trace⟩
  · rw [if_neg zero, if_neg zero]
    exact ⟨now, rfl, by simp [ready], remaining, first, done, trace⟩

theorem Reordered.arriveFrom (reordered : Reordered σ w w') (line : List (Fin n))
    (renamed : Renamed σ s s') : Renamed σ (w.arriveFrom (line.map σ) s) (w'.arriveFrom line s') := by
  induction line generalizing s s' with
  | nil => exact renamed
  | cons i line ih =>
    rw [List.map_cons]
    unfold Workload.arriveFrom
    rw [reordered.arrival i, ← renamed.now]
    by_cases due : w.arrival (σ i) ≤ s.now
    · rw [if_pos due, if_pos due]
      exact ih (reordered.receive renamed i line)
    · rw [if_neg due, if_neg due]
      exact renamed

theorem Reordered.arrive (reordered : Reordered σ w w') (renamed : Renamed σ s s') :
    Renamed σ (w.arrive s) (w'.arrive s') := by
  unfold Workload.arrive
  rw [renamed.pending]
  exact reordered.arriveFrom s'.pending renamed

theorem Reordered.jump (reordered : Reordered σ w w') (renamed : Renamed σ s s') :
    Renamed σ (w.jump s) (w'.jump s') := by
  obtain ⟨now, pending, ready, remaining, first, done, trace⟩ := renamed
  unfold Workload.jump
  cases held : s'.ready with
  | cons i rest =>
    rw [held, List.map_cons] at ready
    rw [ready]
    exact ⟨now, pending, by rw [ready, held, List.map_cons], remaining, first, done, trace⟩
  | nil =>
    rw [held, List.map_nil] at ready
    cases line : s'.pending with
    | nil =>
      rw [line, List.map_nil] at pending
      rw [ready, pending]
      exact ⟨now, by rw [pending, line, List.map_nil], by rw [ready, held, List.map_nil], remaining, first, done,
        trace⟩
    | cons i rest =>
      rw [line, List.map_cons] at pending
      rw [ready, pending]
      refine ⟨?_, rfl, rfl, remaining, first, done, trace⟩
      change max s.now (w.arrival (σ i)) = max s'.now (w'.arrival i)
      rw [now, reordered.arrival i]

/-- The place in the input never decides the shortest job. -/
theorem Reordered.shortest (reordered : Reordered σ w w') (renamed : Renamed σ s s') (i j : Fin n) :
    w.shortest s (σ i) < w.shortest s (σ j) ↔ w'.shortest s' i < w'.shortest s' j := by
  have tie : w.arrival (σ i) = w.arrival (σ j) → i = j := fun same => σ.injective (reordered.apart same)
  simp only [Workload.shortest, Prod.Lex.toLex_lt_toLex, renamed.remaining, reordered.arrival]
  constructor
  · rintro (less | ⟨same, earlier | ⟨together, places⟩⟩)
    · exact .inl less
    · exact .inr ⟨same, .inl earlier⟩
    · rw [tie together] at places
      exact absurd places (lt_irrefl _)
  · rintro (less | ⟨same, earlier | ⟨together, places⟩⟩)
    · exact .inl less
    · exact .inr ⟨same, .inl earlier⟩
    · rw [tie together] at places
      exact absurd places (lt_irrefl _)

theorem Reordered.select (reordered : Reordered σ w w') (renamed : Renamed σ s s') (policy : Policy) :
    w.select policy s = (w'.select policy s').map fun chosen => (σ chosen.1, chosen.2.map σ) := by
  have front : s.ready.head?.map (fun i => (i, s.ready.tail)) =
      (s'.ready.head?.map fun i => (i, s'.ready.tail)).map fun chosen => (σ chosen.1, chosen.2.map σ) := by
    rw [renamed.ready, List.head?_map, ← List.map_tail, Option.map_map, Option.map_map]
    rfl
  unfold Workload.select
  cases policy with
  | fcfs => exact front
  | rr => exact front
  | sjf =>
    change (least (w.shortest s) s.ready).map _ = ((least (w'.shortest s') s'.ready).map _).map _
    rw [renamed.ready, least_map s'.ready (reordered.shortest renamed), Option.map_map, Option.map_map]
    congr 1
    funext i
    exact congrArg (Prod.mk (σ i)) (List.map_erase σ.injective s'.ready).symm

theorem Renamed.work (renamed : Renamed σ s s') (policy : Policy) (quantum : Nat) (i : Fin n)
    (rest : List (Fin n)) :
    Renamed σ (s.work policy quantum (σ i) (rest.map σ)) (s'.work policy quantum i rest) := by
  obtain ⟨now, pending, ready, remaining, first, done, trace⟩ := renamed
  have lasts : s.duration policy quantum (σ i) = s'.duration policy quantum i := by
    cases policy <;> simp [State.duration, remaining]
  unfold State.work
  simp only [now, lasts, remaining, first]
  refine ⟨rfl, pending, rfl, update_renamed remaining i _, update_renamed first i _, fun j => ?_, ?_⟩
  · by_cases ended : s'.remaining i - s'.duration policy quantum i = 0
    · rw [if_pos ended, if_pos ended]
      exact update_renamed done i _ j
    · rw [if_neg ended, if_neg ended]
      exact done j
  · rw [trace, List.map_append]
    rfl

theorem Renamed.requeue (renamed : Renamed σ s s') (i : Fin n) :
    Renamed σ (s.requeue (σ i)) (s'.requeue i) := by
  unfold State.requeue
  rw [renamed.remaining i]
  by_cases finished : s'.remaining i = 0
  · rw [if_pos finished, if_pos finished]
    exact renamed
  · rw [if_neg finished, if_neg finished]
    obtain ⟨now, pending, ready, remaining, first, done, trace⟩ := renamed
    exact ⟨now, pending, by simp [ready], remaining, first, done, trace⟩

/-- One pass of each run. -/
theorem Reordered.pass (reordered : Reordered σ w w') (renamed : Renamed σ s s') (policy : Policy)
    (quantum : Nat) : Renamed σ (w.pass policy quantum s) (w'.pass policy quantum s') := by
  have poised := reordered.arrive (reordered.jump renamed)
  have chosen := reordered.select poised policy
  unfold Workload.pass
  cases taken : w'.select policy (w'.arrive (w'.jump s')) with
  | none =>
    rw [taken, Option.map_none] at chosen
    simp only [chosen, taken]
    exact poised
  | some pair =>
    obtain ⟨i, rest⟩ := pair
    rw [taken, Option.map_some] at chosen
    simp only [chosen, taken]
    exact (reordered.arrive (poised.work policy quantum i rest)).requeue i

theorem Renamed.going (renamed : Renamed σ s s') : s.Going ↔ s'.Going := by
  simp [State.Going, renamed.pending, renamed.ready]

/-! ### The runs -/

theorem Reordered.leads (reordered : Reordered σ w w') (leads : w.Leads policy quantum w.start t)
    (leads' : w'.Leads policy quantum w'.start t') : Renamed σ t t' := by
  refine leads.alongside (Renamed σ) leads' (fun s s' renamed => renamed.going) ?_ reordered.start
  rintro s s' m m' renamed - next next'
  cases next
  cases next'
  exact reordered.pass renamed policy quantum

theorem Reordered.trace (reordered : Reordered σ w w') (renamed : Renamed σ t t') :
    t'.trace.map w'.label = t.trace.map w.label := by
  rw [renamed.trace, List.map_map]
  apply List.map_congr_left
  intro x _
  exact congrArg (Slice.mk · x.start x.stop) (reordered.name x.job)

theorem Reordered.metrics (reordered : Reordered σ w w') (renamed : Renamed σ t t') (i : Fin n) :
    t'.metrics w' i = t.metrics w (σ i) := by
  simp only [State.metrics, renamed.first, renamed.done, reordered.arrival]

/-- Input order matters only through ties. For every valid workload whose jobs
arrive at different times, every order of the job list, every policy and every
quantum, `simulate` returns the same trace and the same response and turnaround
under each name. -/
theorem input_order (jobs : Fin n → Job) (σ : Equiv.Perm (Fin n)) (policy : Policy) (quantum : Nat)
    (named : Function.Injective fun i => (jobs i).name)
    (proper : ∀ i, 0 ≤ (jobs i).arrival ∧ 0 ≤ (jobs i).service)
    (apart : Function.Injective fun i => (jobs i).arrival) (positive : 0 < quantum) :
    ∃ r r', Simulates jobs policy quantum r ∧ Simulates (jobs ∘ σ) policy quantum r' ∧
      r'.trace = r.trace ∧ ∀ i j, (jobs (σ i)).name = (jobs j).name → r'.result i = r.result j := by
  obtain ⟨w, accepted, same⟩ := validate_accepts jobs named proper
  obtain ⟨w', accepted', same'⟩ := validate_accepts (jobs ∘ σ) (named.comp σ.injective) fun i => proper (σ i)
  have reordered : Reordered σ w w' := by
    refine ⟨fun i => ?_, fun i => ?_, fun i => ?_, fun i j together => apart ?_⟩
    · rw [(same' i).1, (same (σ i)).1]
      rfl
    · have there := (same (σ i)).2.1
      rw [← Nat.cast_inj (R := Int), (same' i).2.1, there]
      rfl
    · have there := (same (σ i)).2.2
      rw [← Nat.cast_inj (R := Int), (same' i).2.2, there]
      rfl
    · change (jobs i).arrival = (jobs j).arrival
      rw [← (same i).2.1, ← (same j).2.1, together]
  obtain ⟨t, leads, -⟩ := schedule_ends w policy positive
  obtain ⟨t', leads', -⟩ := schedule_ends w' policy positive
  obtain ⟨-, returns⟩ := leads_returns positive leads
  obtain ⟨-, returns'⟩ := leads_returns positive leads'
  have renamed := reordered.leads leads leads'
  refine ⟨_, _, Returns.simulate accepted positive returns, Returns.simulate accepted' positive returns',
    reordered.trace renamed, fun i j called => ?_⟩
  obtain rfl : σ i = j := named called
  exact reordered.metrics renamed i

/-- Three jobs that arrive one after another, of which the last is the shortest. -/
def spaced : Fin 3 → Job := ![⟨"A", 0, 6⟩, ⟨"B", 1, 3⟩, ⟨"C", 2, 1⟩]

theorem input_order_spaced : ∃ r r', Simulates spaced .sjf 2 r ∧
    Simulates (spaced ∘ Fin.revPerm) .sjf 2 r' ∧ r'.trace = r.trace ∧
    ∀ i j, (spaced (Fin.revPerm i)).name = (spaced j).name → r'.result i = r.result j :=
  input_order spaced Fin.revPerm .sjf 2 (by decide) (by decide) (by decide) (by decide)

end Neonos.Scheduling
