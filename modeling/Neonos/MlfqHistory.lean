import Neonos.MlfqTrace

/-! Whole runs of the MLFQ simulator, pass by pass. A history is the list of
the states at the head of the loop, so what a pass found and what it did can be
told of any pass of the run. -/
namespace Neonos.Mlfq
open StableChoice WhileLoop Runs

variable {w : Workload n} {policy : Policy} {period : Nat} {s t : State n} {heads : List (State n)} {i : Fin n}

namespace Workload
variable (w : Workload n) (policy : Policy) (period : Nat)

/-- The loop went from its start through these heads to `t`. -/
def Passes (heads : List (State n)) (t : State n) : Prop :=
  Run (Turn State.Going (w.pass policy period)) (w.start period) heads t

/-- A complete run of the loop. -/
def Schedules (heads : List (State n)) (t : State n) : Prop := w.Passes policy period heads t ∧ ¬ t.Going

end Workload

/-- The tick of a pass, if it has one. -/
def State.ticked (s : State n) (policy : Policy) (period : Nat) : List (Tick (Fin n)) :=
  (s.poised policy period).current.toList.map fun i =>
    ⟨(s.poised policy period).now, i, ((s.poised policy period).entries i).level⟩

/-- Every workload has one complete run, and `simulate` reports its end. -/
theorem schedules (w : Workload n) (policy : Policy) (period : Nat) :
    ∃ heads t, w.Schedules policy period heads t ∧ w.Returns policy period (t.outcome w) := by
  obtain ⟨t, leads, -⟩ := schedule_ends w policy period
  obtain ⟨heads, run, stopped⟩ := leads.history
  exact ⟨heads, t, ⟨run, stopped⟩, (leads_returns leads).2⟩

theorem passes_head (run : w.Passes policy period heads t) : AtHead w t :=
  run.preserves (AtHead w) (fun _ _ _ head turn => head.next turn.2.2) (start_head w period)

/-- What held where a pass of the run began. -/
theorem passes_taken (run : w.Passes policy period (before ++ s :: after) t) :
    w.Passes policy period before s ∧ s.Going ∧
      ∃ m, w.pass policy period s = .ok m ∧ Run (Turn State.Going (w.pass policy period)) m after t := by
  obtain ⟨m, first, onward⟩ := run.split
  obtain ⟨m', ⟨same, on, next⟩, rest⟩ := onward.uncons
  subst same
  exact ⟨first, on, m', next, rest⟩

/-! ### The trace -/

theorem poised_trace (s : State n) (policy : Policy) (period : Nat) :
    (s.poised policy period).trace = s.trace := by
  have trace := (boost_other s.scan policy period).2.1
  unfold State.poised
  rcases dispatch_cases (s.scan.boost policy period) policy with ⟨i, -, -, given⟩ | ⟨-, given⟩ <;> rw [given] <;>
    exact trace.trans (scan_trace s)

theorem AtHead.next_trace (head : AtHead w s) (next : w.pass policy period s = .ok t) :
    t.trace = s.trace ++ s.ticked policy period := by
  obtain ⟨a, rfl, -, -, ⟨free, -, moved⟩ | ⟨i, current, -, ticks⟩⟩ := head.cases policy period
  · cases moved.symm.trans next
    have still : (s.poised policy period).idle.trace = (s.poised policy period).trace := by
      rcases idle_cases (s.poised policy period) with ⟨_, -, -, same⟩ | ⟨-, same⟩ <;> rw [same]
    rw [still, poised_trace, State.ticked, free]
    simp
  · cases ticks.symm.trans next
    rw [(tick_trace w policy _ i).1, poised_trace, State.ticked, current]
    rfl

/-- The trace is the ticks of the passes, in order. -/
theorem passes_trace (run : w.Passes policy period heads t) : t.trace = heads.flatMap fun s => s.ticked policy period := by
  induction run with
  | nil => rfl
  | @snoc heads m head t run last ih =>
    obtain ⟨rfl, -, next⟩ := last
    rw [(passes_head run).next_trace next, ih]
    simp

/-! ### A job that keeps the processor -/

/-- While a job keeps the processor, nothing is due before its next tick. -/
def Undisturbed (policy : Policy) (s : State n) : Prop := ∀ i, s.current = some i → Settled s ∧
  (policy = .mlfq → s.now < s.nextBoost ∧ ∀ k ∈ s.ready, ¬ (s.entries k).level < (s.entries i).level)

theorem AtHead.next_undisturbed (head : AtHead w s) (next : w.pass policy period s = .ok t) :
    Undisturbed policy t := by
  obtain ⟨a, rfl, head', settled, ⟨free, -, moved⟩ | ⟨i, current, running, ticks⟩⟩ := head.cases policy period
  · cases moved.symm.trans next
    intro j other
    have still : (s.poised policy period).idle.current = (s.poised policy period).current := by
      rcases idle_cases (s.poised policy period) with ⟨_, -, -, same⟩ | ⟨-, same⟩ <;> rw [same]
    exact absurd (free.symm.trans (still.symm.trans other)) (by simp)
  · cases ticks.symm.trans next
    rcases tick_cases w policy (s.poised policy period) i with stopped | ⟨on, -, -, -, stays⟩
    · rw [stopped]
      intro j other
      exact absurd ((giveUp_current _ i).symm.trans other) (by simp)
    · rw [on]
      intro j mine
      rw [spend_eq, scan_current] at mine
      obtain rfl : i = j := Option.some.inj (current.symm.trans mine)
      refine ⟨(head'.toKept.charged settled current running).scan.2, fun mlfq => ?_⟩
      simp only [State.Preempts, mlfq, true_and, not_or, not_exists, not_and, not_le] at stays
      subst mlfq
      exact ⟨stays.2, stays.1⟩

/-- A pass that finds a current job goes straight to its tick. -/
theorem Undisturbed.poised (undisturbed : Undisturbed policy s) (current : s.current = some i) :
    s.poised policy period = s := by
  obtain ⟨settled, calm⟩ := undisturbed i current
  have quiet : s.boost policy period = s := by
    unfold State.boost
    apply if_neg
    rintro ⟨mlfq, due⟩
    exact absurd (calm mlfq).1 (not_lt.mpr due)
  unfold State.poised
  rw [scan_settled settled, quiet]
  rcases dispatch_cases s policy with ⟨j, free, -⟩ | ⟨-, same⟩
  · exact absurd (current.symm.trans free) (by simp)
  · exact same

theorem start_undisturbed (w : Workload n) (policy : Policy) (period : Nat) :
    Undisturbed policy (w.start period) := by
  intro i mine
  simp [Workload.start] at mine

theorem passes_undisturbed (run : w.Passes policy period heads t) : Undisturbed policy t := by
  cases run with
  | nil => exact start_undisturbed w policy period
  | snoc run last => exact (passes_head run).next_undisturbed last.2.2

end Neonos.Mlfq
