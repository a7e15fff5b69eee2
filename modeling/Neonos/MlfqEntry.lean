import Neonos.Model.Mlfq

/-! The entries of the MLFQ simulator: what a scan makes of each, and an account
of a job's past that every part of the loop body keeps. -/
namespace Neonos.Mlfq
open StableChoice WhileLoop

variable {w : Workload n} {policy : Policy} {period : Nat} {s t : State n} {i j : Fin n} {e : Entry}

/-- A field that the update of one entry leaves alone is left alone everywhere. -/
theorem update_kept {entries : Fin n → Entry} (field : Entry → α) (same : field e = field (entries i)) (j : Fin n) :
    field (Function.update entries i e j) = field (entries j) := by
  by_cases own : j = i
  · rw [own, Function.update_self]
    exact same
  · rw [Function.update_of_ne own]

/-! ### The scan -/

/-- An entry after the scan at time `now`. -/
def woken (now : Nat) (e : Entry) : Entry :=
  if e.Sleeps ∧ e.wake ≤ now then
    if e.left = 0 then { e with first := some now, done := some now, phase := .done }
    else { e with phase := .ready, readyAt := now }
  else e

/-- The scan makes it ready. -/
def Rises (now : Nat) (e : Entry) : Prop := (e.Sleeps ∧ e.wake ≤ now) ∧ e.left ≠ 0

instance (now : Nat) (e : Entry) : Decidable (Rises now e) := inferInstanceAs (Decidable (_ ∧ _))

theorem wake_eq (s : State n) (i : Fin n) : s.wake i = { s with
    entries := Function.update s.entries i (woken s.now (s.entries i))
    ready := s.ready ++ [i].filter fun i => Rises s.now (s.entries i) } := by
  unfold State.wake woken Rises
  by_cases due : (s.entries i).Sleeps ∧ (s.entries i).wake ≤ s.now
  · by_cases empty : (s.entries i).left = 0 <;> simp [due, empty, State.setEntry]
  · simp [due]

/-- The scan as one map over the entries. -/
theorem scan_eq (s : State n) : s.scan = { s with
    entries := fun i => woken s.now (s.entries i)
    ready := s.ready ++ (List.finRange n).filter fun i => Rises s.now (s.entries i) } := by
  have part (visited : List (Fin n)) (distinct : visited.Nodup) (s : State n) :
      visited.foldl State.wake s = { s with
        entries := fun i => if i ∈ visited then woken s.now (s.entries i) else s.entries i
        ready := s.ready ++ visited.filter fun i => Rises s.now (s.entries i) } := by
    induction visited generalizing s with
    | nil => simp
    | cons i visited ih =>
      obtain ⟨fresh, rest⟩ := List.nodup_cons.mp distinct
      have behind : (visited.filter fun j => Rises s.now (Function.update s.entries i
          (woken s.now (s.entries i)) j)) = visited.filter fun j => Rises s.now (s.entries j) := by
        apply List.filter_congr
        intro j member
        have other : j ≠ i := by
          rintro rfl
          exact fresh member
        rw [Function.update_of_ne other]
      rw [List.foldl_cons, wake_eq, ih rest]
      simp only [behind, List.append_assoc, ← List.filter_append, List.singleton_append]
      congr 1
      funext j
      by_cases same : j = i
      · subst same
        simp [fresh]
      · simp [same]
  rw [State.scan, part _ (List.nodup_finRange n)]
  simp

@[simp] theorem scan_entries (s : State n) (i : Fin n) : s.scan.entries i = woken s.now (s.entries i) := by
  rw [scan_eq]

theorem scan_ready (s : State n) :
    s.scan.ready = s.ready ++ (List.finRange n).filter fun i => Rises s.now (s.entries i) := by
  rw [scan_eq]

@[simp] theorem scan_now (s : State n) : s.scan.now = s.now := by
  rw [scan_eq]

@[simp] theorem scan_trace (s : State n) : s.scan.trace = s.trace := by
  rw [scan_eq]

@[simp] theorem scan_current (s : State n) : s.scan.current = s.current := by
  rw [scan_eq]

@[simp] theorem scan_switches (s : State n) : s.scan.switches = s.switches := by
  rw [scan_eq]

@[simp] theorem scan_events (s : State n) : s.scan.events = s.events := by
  rw [scan_eq]

@[simp] theorem scan_nextBoost (s : State n) : s.scan.nextBoost = s.nextBoost := by
  rw [scan_eq]

theorem woken_sleeps (sleeps : (woken now e).Sleeps) : woken now e = e ∧ e.Sleeps ∧ now < e.wake := by
  unfold woken at sleeps ⊢
  split
  · rename_i due
    rw [if_pos due] at sleeps
    split at sleeps <;> simp [Entry.Sleeps] at sleeps
  · rename_i notDue
    rw [if_neg notDue] at sleeps
    refine ⟨rfl, sleeps, ?_⟩
    by_contra late
    exact notDue ⟨sleeps, not_lt.mp late⟩

theorem woken_ready (now : Nat) (e : Entry) : (woken now e).phase = .ready ↔ e.phase = .ready ∨ Rises now e := by
  unfold woken Rises
  split
  · rename_i due
    have asleep : e.phase ≠ .ready := by
      rcases due.1 with new | blocked <;> simp [*]
    split <;> simp [*]
  · simp [*]

theorem woken_running (now : Nat) (e : Entry) : (woken now e).phase = .running ↔ e.phase = .running := by
  unfold woken
  split
  · rename_i due
    have asleep : e.phase ≠ .running := by
      rcases due.1 with new | blocked <;> simp [*]
    split <;> simp [*]
  · rfl

theorem woken_awake (awake : ¬ e.Sleeps) : woken now e = e := if_neg fun due => awake due.1

/-! ### One job -/

/-- The ticks a job has had. -/
def times (trace : List (Tick ι)) [DecidableEq ι] (k : ι) : List Nat :=
  (trace.filter fun x => x.job = k).map Tick.time

/-- What an entry says about the job's past, given by the ticks it has had. `mine`
says whether it is the current job. -/
structure Fits (w : Workload n) (i : Fin n) (now : Nat) (mine : Bool) (ticks : List Nat) (e : Entry) :
    Prop where
  used : e.used = ticks.length
  left : e.left + e.used = w.service i
  past : ∀ x ∈ ticks, w.arrival i ≤ x ∧ x < now
  new : e.phase = .new → ticks = [] ∧ e.wake = w.arrival i
  arrived : e.phase ≠ .new → w.arrival i ≤ now
  unended : e.done = none ↔ e.phase ≠ .done
  more : e.phase ≠ .new → e.phase ≠ .done → e.left ≠ 0
  stopped : e.phase = .done → e.left = 0
  blocked : e.phase = .blocked → ∃ x, ticks.getLast? = some x ∧ w.burst i ∣ ticks.length ∧
    e.wake = x + 1 + w.wait i
  rested : ∀ x, ticks.getLast? = some x → w.burst i ∣ ticks.length → e.left ≠ 0 →
    x + 1 + w.wait i ≤ if e.Sleeps then e.wake else now
  paced : ∀ k (inside : k + 1 < ticks.length), w.burst i ∣ k + 1 →
    ticks[k] + 1 + w.wait i ≤ ticks[k + 1]
  first : 0 < w.service i → e.first = ticks.head?.or (if mine then some now else none)
  done : 0 < w.service i → e.phase = .done → e.done = ticks.getLast?.map (· + 1)
  empty : w.service i = 0 → e.phase = .done → e.first = some (w.arrival i) ∧ e.done = some (w.arrival i)

theorem start_fits (w : Workload n) (i : Fin n) :
    Fits w i 0 false [] ((w.start period).entries i) := by
  refine ⟨rfl, Nat.add_zero _, nofun, fun _ => ⟨rfl, rfl⟩, fun other => absurd rfl other, ?_,
    fun other => absurd rfl other, nofun, nofun, nofun, nofun, fun _ => rfl, fun _ => nofun, fun _ => nofun⟩
  simp [Workload.start]

theorem Fits.woken (fits : Fits w i now mine ticks e) (early : e.Sleeps → now ≤ e.wake) :
    Fits w i now mine ticks (woken now e) := by
  unfold Mlfq.woken
  split
  · rename_i due
    obtain ⟨sleeps, due⟩ := due
    have sharp : e.wake = now := le_antisymm due (early sleeps)
    have notDone : e.phase ≠ .done := by
      rcases sleeps with new | blocked <;> simp [*]
    split
    · rename_i none
      have new : e.phase = .new := by
        by_contra other
        exact fits.more other notDone none
      obtain ⟨fresh, wake⟩ := fits.new new
      have zero : w.service i = 0 := by
        rw [← fits.left, none, fits.used, fresh]
        rfl
      have here : w.arrival i = now := wake.symm.trans sharp
      refine ⟨fits.used, fits.left, fits.past, nofun, fun _ => here.le, ?_, fun _ other => absurd rfl other,
        fun _ => none, nofun, fun _ _ _ more => absurd none more, fits.paced, fun proper => ?_,
        fun proper => ?_, fun _ _ => ⟨congrArg some here.symm, congrArg some here.symm⟩⟩
      · simp
      · omega
      · omega
    · rename_i some
      have here : w.arrival i ≤ now := by
        by_cases new : e.phase = .new
        · rw [← (fits.new new).2]
          exact due
        · exact fits.arrived new
      refine ⟨fits.used, fits.left, fits.past, nofun, fun _ => here, ?_, fun _ _ => some, nofun, nofun,
        fun x last whole more => ?_, fits.paced, fits.first, fun _ => nofun, fun _ => nofun⟩
      · simpa using fits.unended.mpr notDone
      · have rests := fits.rested x last whole more
        rw [if_pos sleeps, sharp] at rests
        rw [if_neg (by simp [Entry.Sleeps])]
        exact rests
  · exact fits

/-- Other levels and slices do not matter. -/
theorem Fits.levels (fits : Fits w i now mine ticks e) (level : Fin 3) (slice allot : Int) :
    Fits w i now mine ticks { e with level, slice, allot } :=
  ⟨fits.used, fits.left, fits.past, fits.new, fits.arrived, fits.unended, fits.more, fits.stopped,
    fits.blocked, fits.rested, fits.paced, fits.first, fits.done, fits.empty⟩

/-- The entry of a job that is given the processor. -/
def Entry.taken (e : Entry) (now : Nat) : Entry :=
  { e with maxWait := max e.maxWait (now - e.readyAt), phase := .running, first := some (e.first.getD now) }

theorem Fits.dispatched (fits : Fits w i now false ticks e) (ready : e.phase = .ready) :
    Fits w i now true ticks (e.taken now) := by
  unfold Entry.taken
  have notNew : e.phase ≠ .new := by simp [ready]
  have notDone : e.phase ≠ .done := by simp [ready]
  have awake : ¬ e.Sleeps := by simp [Entry.Sleeps, ready]
  refine ⟨fits.used, fits.left, fits.past, nofun, fun _ => fits.arrived notNew, ?_,
    fun _ _ => fits.more notNew notDone, nofun, nofun, fun x last whole more => ?_, fits.paced,
    fun proper => ?_, fun _ => nofun, fun _ => nofun⟩
  · simpa using fits.unended.mpr notDone
  · have rests := fits.rested x last whole more
    rw [if_neg awake] at rests
    rw [if_neg (by simp [Entry.Sleeps])]
    exact rests
  · have first := fits.first proper
    cases ticks with
    | nil =>
      have unset : e.first = none := first
      simp [unset]
    | cons x ticks =>
      have set : e.first = some x := first
      simp [set]

/-- Time that passes while a job does not run. -/
theorem Fits.later (fits : Fits w i now false ticks e) (later : now ≤ next) :
    Fits w i next false ticks e := by
  refine ⟨fits.used, fits.left, fun x member => ?_, fits.new, fun other => (fits.arrived other).trans later,
    fits.unended, fits.more, fits.stopped, fits.blocked, fun x last whole more => ?_, fits.paced, fits.first,
    fits.done, fits.empty⟩
  · obtain ⟨after, before⟩ := fits.past x member
    exact ⟨after, before.trans_le later⟩
  · have rests := fits.rested x last whole more
    split
    · rename_i sleeps
      rwa [if_pos sleeps] at rests
    · rename_i awake
      rw [if_neg awake] at rests
      exact rests.trans later

/-- A renewal touches level, slice and allotment only, the level with a demotion only. -/
theorem renew_other (policy : Policy) (e : Entry) : ∃ level slice allot,
    e.renew policy = { e with level, slice, allot } ∧ (¬ e.Demotes policy → level = e.level) := by
  unfold Entry.renew
  split
  · rename_i demotes
    exact ⟨_, _, _, rfl, fun calm => absurd demotes calm⟩
  · split
    · exact ⟨_, _, _, rfl, fun _ => rfl⟩
    · exact ⟨_, _, _, rfl, fun _ => rfl⟩

/-- What a tick does to its entry, levels and slices aside. -/
theorem renew_eq (policy : Policy) (e : Entry) :
    ∃ level slice allot, e.charge.renew policy =
      { e with left := e.left - 1, used := e.used + 1, level, slice, allot } := by
  obtain ⟨level, slice, allot, same, -⟩ := renew_other policy e.charge
  exact ⟨level, slice, allot, same⟩

/-- A tick of the current job. -/
theorem Fits.spent (fits : Fits w i now true ticks e) (running : e.phase = .running) :
    Fits w i (now + 1) true (ticks ++ [now]) (w.leave i (now + 1) (e.charge.renew policy)) := by
  obtain ⟨level, slice, allot, renewed⟩ := renew_eq policy e
  rw [renewed]
  have notNew : e.phase ≠ .new := by simp [running]
  have notDone : e.phase ≠ .done := by simp [running]
  have some := fits.more notNew notDone
  have here := fits.arrived notNew
  have account := fits.left
  have length : (ticks ++ [now]).length = ticks.length + 1 := List.length_append
  have used : e.used + 1 = (ticks ++ [now]).length := by rw [fits.used, length]
  have total : e.left - 1 + (e.used + 1) = w.service i := by omega
  have last : (ticks ++ [now]).getLast? = Option.some now := by simp
  have past : ∀ x ∈ ticks ++ [now], w.arrival i ≤ x ∧ x < now + 1 := by
    intro x member
    rcases List.mem_append.mp member with before | same
    · obtain ⟨after, early⟩ := fits.past x before
      exact ⟨after, early.trans (Nat.lt_succ_self now)⟩
    · rw [List.mem_singleton.mp same]
      exact ⟨here, Nat.lt_succ_self now⟩
  have paced : ∀ k (inside : k + 1 < (ticks ++ [now]).length), w.burst i ∣ k + 1 →
      (ticks ++ [now])[k] + 1 + w.wait i ≤ (ticks ++ [now])[k + 1] := by
    intro k inside whole
    have within : k < ticks.length := by omega
    rw [List.getElem_append_left within]
    by_cases old : k + 1 < ticks.length
    · rw [List.getElem_append_left old]
      exact fits.paced k old whole
    · have final : k + 1 = ticks.length := by omega
      have before : ticks.getLast? = Option.some ticks[k] := by
        rw [List.getLast?_eq_getElem?, ← final, Nat.add_sub_cancel, List.getElem?_eq_getElem within]
      have rests := fits.rested _ before (final ▸ whole) some
      rw [if_neg (by simp [Entry.Sleeps, running])] at rests
      rw [List.getElem_append_right final.ge]
      simpa [final] using rests
  have first : 0 < w.service i → e.first = (ticks ++ [now]).head?.or (if true then Option.some (now + 1) else none) := by
    intro proper
    rw [fits.first proper]
    cases ticks <;> rfl
  have stopped : e.left - 1 = 0 → w.service i ≠ 0 := by omega
  unfold Workload.leave
  split
  · rename_i finished
    refine ⟨used, total, past, nofun, fun _ => here.trans (Nat.le_succ now), ?_, fun _ other => absurd rfl other,
      fun _ => finished, nofun, fun x final whole more => absurd finished more, paced, first, fun _ _ => ?_,
      fun zero => absurd zero (by omega)⟩
    · simp
    · rw [last]
      rfl
  · rename_i unfinished
    have unended := fits.unended.mpr notDone
    split
    · rename_i blocks
      obtain ⟨⟨-, whole⟩, -⟩ := blocks
      have divides : w.burst i ∣ (ticks ++ [now]).length := used ▸ Nat.dvd_of_mod_eq_zero whole
      refine ⟨used, total, past, nofun, fun _ => here.trans (Nat.le_succ now), ?_, fun _ _ => unfinished, nofun,
        fun _ => ⟨now, last, divides, rfl⟩, fun x final _ _ => ?_, paced, first, fun _ => nofun, fun _ => nofun⟩
      · simpa using unended
      · cases last.symm.trans final
        simp [Entry.Sleeps]
    · rename_i stays
      refine ⟨used, total, past, fun new => absurd new notNew, fun _ => here.trans (Nat.le_succ now), fits.unended,
        fun _ _ => unfinished, fun done => absurd done notDone, fun blocked => ?_, fun x final whole _ => ?_,
        paced, first, fun _ done => absurd done notDone, fun _ done => absurd done notDone⟩
      · cases running.symm.trans blocked
      · cases last.symm.trans final
        rw [if_neg (by simp [Entry.Sleeps, running])]
        -- A whole burst that does not block has no wait.
        have nowait : w.wait i = 0 := by
          by_contra waits
          refine stays ⟨⟨w.waits i waits, ?_⟩, waits⟩
          exact Nat.mod_eq_zero_of_dvd (used ▸ whole)
        omega

/-- The end of a turn. -/
theorem Fits.released (fits : Fits w i now true ticks e) (some : ticks ≠ []) :
    Fits w i now false ticks e := by
  refine ⟨fits.used, fits.left, fits.past, fits.new, fits.arrived, fits.unended, fits.more, fits.stopped,
    fits.blocked, fits.rested, fits.paced, fun proper => ?_, fits.done, fits.empty⟩
  rw [fits.first proper]
  cases ticks with
  | nil => exact absurd rfl some
  | cons => rfl

/-- The current job goes back to the ready list. -/
theorem Fits.gaveUp (fits : Fits w i now true ticks e) (running : e.phase = .running)
    (some : ticks ≠ []) (readyAt : Nat) : Fits w i now false ticks { e with phase := .ready, readyAt } := by
  have notNew : e.phase ≠ .new := by simp [running]
  have notDone : e.phase ≠ .done := by simp [running]
  have free := fits.released some
  refine ⟨free.used, free.left, free.past, nofun, fun _ => free.arrived notNew, ?_,
    fun _ _ => free.more notNew notDone, nofun, nofun, fun x last whole more => ?_, free.paced, free.first,
    fun _ => nofun, fun _ => nofun⟩
  · simpa using free.unended.mpr notDone
  · have rests := free.rested x last whole more
    rw [if_neg (by simp [Entry.Sleeps, running])] at rests
    rw [if_neg (by simp [Entry.Sleeps])]
    exact rests

theorem Fits.ended (fits : Fits w i now mine ticks e) (done : e.done = some d) : e.phase = .done := by
  by_contra other
  exact absurd (done.symm.trans (fits.unended.mpr other)) nofun

end Neonos.Mlfq
