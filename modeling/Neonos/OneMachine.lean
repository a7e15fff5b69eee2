import Mathlib
import Neonos.SortedLine

/-! Timetables of one machine: which job has which unit of time. When a
timetable never idles while there is work, the busy times are decided by the
arrivals and the work alone; and no timetable completes jobs earlier in total
than the shortest-first order of jobs that are all there at the start. -/
namespace Neonos.OneMachine
open SortedLine

/-- Units of time given to jobs, in order: each job has as many as it needs,
none before it has arrived. -/
structure Timetable (arrival service : ι → Nat) [DecidableEq ι] where
  ticks : List (Nat × ι)
  ordered : ticks.Pairwise fun a b => a.1 < b.1
  whole : ∀ i, ticks.countP (fun e => e.2 = i) = service i
  arrived : ∀ e ∈ ticks, arrival e.2 ≤ e.1

variable [DecidableEq ι] {arrival service : ι → Nat}

/-- Time nobody has is time when everybody who has arrived is finished. -/
def Timetable.Conserving (table : Timetable arrival service) : Prop :=
  ∀ τ, τ ∉ table.ticks.map Prod.fst → ∀ e ∈ table.ticks, arrival e.2 ≤ τ → e.1 < τ

/-- The units of time that somebody has. -/
def Timetable.busy (table : Timetable arrival service) : List Nat := table.ticks.map Prod.fst

theorem Timetable.busy_ordered (table : Timetable arrival service) :
    table.busy.Pairwise (· < ·) :=
  List.pairwise_map.mpr table.ordered

/-- What is counted is counted for somebody. -/
theorem countP_by [Fintype ι] (line : List α) (owner : α → ι) (p : α → Bool) :
    line.countP p = ∑ i, line.countP fun a => p a && owner a = i := by
  induction line with
  | nil => simp
  | cons a line ih =>
    simp only [List.countP_cons, Finset.sum_add_distrib, ← ih]
    by_cases holds : p a <;> simp [holds]

/-- Counting more, and `a` besides. -/
theorem countP_lt {line : List α} {p q : α → Bool} (more : ∀ a ∈ line, p a → q a) (member : a ∈ line)
    (counted : q a) (new : ¬ p a) : line.countP p < line.countP q := by
  obtain ⟨front, back, rfl⟩ := List.append_of_mem member
  have before : front.countP p ≤ front.countP q :=
    List.countP_mono_left fun b inside => more b (by simp [inside])
  have behind : back.countP p ≤ back.countP q :=
    List.countP_mono_left fun b inside => more b (by simp [inside])
  rw [List.countP_append, List.countP_append, List.countP_cons_of_pos counted,
    List.countP_cons_of_neg new]
  omega

/-- How much time has been given out before `τ`. -/
def Timetable.spent (table : Timetable arrival service) (τ : Nat) : Nat :=
  table.ticks.countP fun e => e.1 < τ

theorem spent_eq (table : Timetable arrival service) (τ : Nat) :
    table.spent τ = (table.busy.filter (· < τ)).length := by
  rw [Timetable.spent, Timetable.busy, ← List.countP_eq_length_filter, List.countP_map]
  rfl

section conserving
variable [Fintype ι]

/-- The work of everybody who has arrived. -/
def brought (arrival service : ι → Nat) (τ : Nat) : Nat :=
  ∑ i, if arrival i ≤ τ then service i else 0

theorem Timetable.busy_iff (table : Timetable arrival service) (conserving : table.Conserving)
    (τ : Nat) : τ ∈ table.busy ↔ table.spent τ < brought arrival service τ := by
  have early (i : ι) (late : ¬ arrival i ≤ τ) :
      table.ticks.countP (fun e => decide (e.1 < τ) && decide (e.2 = i)) = 0 := by
    rw [List.countP_eq_zero]
    intro e member both
    simp only [Bool.and_eq_true, decide_eq_true_eq] at both
    have here := table.arrived e member
    rw [both.2] at here
    omega
  have bound (i : ι) : table.ticks.countP (fun e => decide (e.1 < τ) && decide (e.2 = i)) ≤ service i := by
    rw [← table.whole i]
    apply List.countP_mono_left
    intro e _ both
    simp only [Bool.and_eq_true] at both
    exact both.2
  have each (i : ι) : table.ticks.countP (fun e => decide (e.1 < τ) && decide (e.2 = i)) ≤
      if arrival i ≤ τ then service i else 0 := by
    split
    · exact bound i
    · rename_i late
      rw [early i late]
  unfold Timetable.spent brought
  rw [countP_by _ Prod.snd]
  constructor
  · intro busy
    obtain ⟨e, member, rfl⟩ := List.mem_map.mp busy
    apply Finset.sum_lt_sum (fun i _ => each i)
    refine ⟨e.2, Finset.mem_univ _, ?_⟩
    -- The unit that is being given out now is not among those given out before.
    rw [if_pos (table.arrived e member), ← table.whole e.2]
    refine countP_lt (fun d _ both => ?_) member (by simp) (by simp)
    simp only [Bool.and_eq_true] at both
    exact both.2
  · intro less
    by_contra idle
    refine less.ne (Finset.sum_congr rfl fun i _ => ?_)
    split
    · rename_i here
      rw [← table.whole i]
      apply List.countP_congr
      intro e member
      simp only [Bool.and_eq_true, decide_eq_true_eq, and_iff_right_iff_imp]
      rintro rfl
      exact conserving τ idle e member here
    · rename_i late
      exact early i late

/-- Whoever is given the time, the same time is given out. -/
theorem busy_unique (table other : Timetable arrival service) (conserving : table.Conserving)
    (conserving' : other.Conserving) : table.busy = other.busy := by
  have same (τ : Nat) : τ ∈ table.busy ↔ τ ∈ other.busy := by
    induction τ using Nat.strongRecOn with
    | ind τ ih =>
      have before : table.busy.filter (· < τ) = other.busy.filter (· < τ) := by
        refine eq_of_mem_iff (table.busy_ordered.sublist List.filter_sublist)
          (other.busy_ordered.sublist List.filter_sublist) fun σ => ?_
        simp only [List.mem_filter, decide_eq_true_eq]
        exact and_congr_left (ih σ)
      rw [table.busy_iff conserving, other.busy_iff conserving', spent_eq, spent_eq, before]
  exact eq_of_mem_iff table.busy_ordered other.busy_ordered same

/-- So it is for two descriptions of the same jobs. -/
theorem busy_shared {arrival' service' : ι → Nat} (table : Timetable arrival service)
    (other : Timetable arrival' service') (same : arrival' = arrival) (same' : service' = service)
    (conserving : table.Conserving) (conserving' : other.Conserving) : table.busy = other.busy := by
  subst same same'
  exact busy_unique table other conserving conserving'

end conserving

/-! ### Completion times in total -/

/-- The sum of the completion times of pieces of work done back to back from `free` on. -/
def total : Nat → List Nat → Nat
  | _, [] => 0
  | free, p :: rest => free + p + total (free + p) rest

/-- Moving a piece of work back behind shorter ones makes the sum no larger. -/
theorem total_orderedInsert (free p : Nat) (line : List Nat) :
    total free (line.orderedInsert (· ≤ ·) p) ≤ total free (p :: line) := by
  induction line generalizing free with
  | nil => exact le_rfl
  | cons q line ih =>
    by_cases before : p ≤ q
    · rw [List.orderedInsert_cons_of_le _ _ before]
    · rw [List.orderedInsert_of_not_le _ _ before]
      have rest : total (free + q) (line.orderedInsert LE.le p) ≤ total (free + q) (p :: line) := ih _
      simp only [total] at rest ⊢
      have same : free + q + p = free + p + q := by omega
      rw [same] at rest
      omega

theorem total_insertionSort (free : Nat) (line : List Nat) :
    total free (line.insertionSort (· ≤ ·)) ≤ total free line := by
  induction line generalizing free with
  | nil => exact le_rfl
  | cons p line ih =>
    rw [List.insertionSort_cons]
    exact (total_orderedInsert free p _).trans (Nat.add_le_add_left (ih _) _)

/-- Shortest first is best. -/
theorem total_sorted_le {line line' : List Nat} (sorted : line.Pairwise (· ≤ ·)) (perm : line.Perm line') :
    total 0 line ≤ total 0 line' := by
  have same : line = line'.insertionSort (· ≤ ·) := by
    refine List.Perm.eq_of_pairwise (fun a b _ _ => le_antisymm) sorted ?_ ?_
    · exact List.pairwise_insertionSort (· ≤ ·) line'
    · exact perm.trans (List.perm_insertionSort _ _).symm
  rw [same]
  exact total_insertionSort 0 line'

/-- What all the listed jobs have is what each of them has. -/
theorem Timetable.given (table : Timetable arrival service) {jobs : List ι} (distinct : jobs.Nodup) :
    (jobs.map service).sum = (table.ticks.filter fun e => e.2 ∈ jobs).length := by
  rw [← List.countP_eq_length_filter]
  induction jobs with
  | nil => simp
  | cons i jobs ih =>
    obtain ⟨fresh, rest⟩ := List.nodup_cons.mp distinct
    rw [List.map_cons, List.sum_cons, ih rest, ← table.whole i,
      List.countP_eq_countP_filter_add table.ticks (fun e => e.2 ∈ i :: jobs) fun e => e.2 = i]
    congr 1
    · rw [List.countP_filter]
      apply List.countP_congr
      intro e _
      simp +contextual
    · rw [List.countP_filter]
      apply List.countP_congr
      intro e _
      simp only [decide_eq_true_eq, List.mem_cons, Bool.and_eq_true, Bool.not_eq_true',
        decide_eq_false_iff_not]
      constructor
      · intro member
        refine ⟨.inr member, ?_⟩
        rintro same
        exact fresh (same ▸ member)
      · rintro ⟨first | member, other⟩
        · exact absurd first other
        · exact member

/-- Jobs that get all their time from `free` on and before `stop` need no more than that. -/
theorem Timetable.fits (table : Timetable arrival service) {jobs : List ι} (distinct : jobs.Nodup)
    (within : ∀ e ∈ table.ticks, e.2 ∈ jobs → free ≤ e.1 ∧ e.1 < stop) :
    (jobs.map service).sum ≤ stop - free := by
  have nodup : ((table.ticks.filter fun e => e.2 ∈ jobs).map Prod.fst).Nodup := by
    apply (List.pairwise_map.mpr (table.ordered.sublist List.filter_sublist)).imp
    intro a b before same
    omega
  have inside : ((table.ticks.filter fun e => e.2 ∈ jobs).map Prod.fst).toFinset ⊆
      Finset.Ico free stop := by
    intro τ member
    obtain ⟨e, chosen, rfl⟩ := List.mem_map.mp (List.mem_toFinset.mp member)
    simp only [List.mem_filter, decide_eq_true_eq] at chosen
    exact Finset.mem_Ico.mpr (within e chosen.1 chosen.2)
  have few := Finset.card_le_card inside
  rw [List.toFinset_card_of_nodup nodup, List.length_map, Nat.card_Ico] at few
  rwa [table.given distinct]

/-- No timetable completes jobs that are all there at `free` earlier in total
than doing them back to back in the order of their completion. -/
theorem Timetable.total_le (table : Timetable arrival service) (free : Nat) (stop : ι → Nat) {line : List ι}
    (distinct : line.Nodup) (sorted : line.Pairwise fun i j => stop i ≤ stop j)
    (from_ : ∀ e ∈ table.ticks, free ≤ e.1) (before : ∀ e ∈ table.ticks, e.1 < stop e.2) :
    total 0 (line.map service) ≤ (line.map fun i => stop i - free).sum := by
  suffices general : ∀ front back, line = front ++ back →
      total (front.map service).sum (back.map service) ≤ (back.map fun i => stop i - free).sum from
    general [] line rfl
  intro front back split
  induction back generalizing front with
  | nil => exact le_rfl
  | cons i back ih =>
    rw [split] at distinct sorted
    have upTo : ∀ j ∈ front ++ [i], stop j ≤ stop i := by
      intro j member
      rcases List.mem_append.mp member with earlier | last
      · exact (List.pairwise_append.mp sorted).2.2 j earlier i List.mem_cons_self
      · rw [List.mem_singleton.mp last]
    have here : ((front ++ [i]).map service).sum ≤ stop i - free := by
      apply table.fits
      · have whole : front ++ i :: back = (front ++ [i]) ++ back := by simp
        rw [whole] at distinct
        exact (List.nodup_append.mp distinct).1
      · intro e member chosen
        exact ⟨from_ e member, (before e member).trans_le (upTo e.2 chosen)⟩
    have rest := ih (front ++ [i]) (by simp [split])
    simp only [List.map_append, List.map_singleton, List.sum_append, List.sum_singleton] at here rest
    rw [List.map_cons, List.map_cons, List.sum_cons, total]
    omega

end Neonos.OneMachine
