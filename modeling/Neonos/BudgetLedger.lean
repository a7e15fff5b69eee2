import Neonos.ReadyInvariant

/-! MLFQ budgets against the history of user intervals. A task's slice and
allotment are what its level grants minus the user time charged to it since
the last event that was entitled to refill them; neither is ever found empty
at a loop head. -/
namespace Neonos.Scheduler
open Runs

namespace Pass

/-- The user interval a pass charges, `event.time - entered`. -/
def interval (p : Pass) : Nat := p.event.time - p.readings.entered

/-- The pass moved its task down by one level. -/
def Demotes (p : Pass) : Prop :=
  (p.after.tasks p.task).level = (p.entry.tasks p.task).level + 1

/-- The pass used up the slice its task was entered with. -/
def Exhausts (p : Pass) : Prop := (p.entry.tasks p.task).slice ≤ p.interval

instance : DecidablePred Demotes := fun _ => inferInstanceAs (Decidable (_ = _))
instance : DecidablePred Exhausts := fun _ => inferInstanceAs (Decidable (_ ≤ _))

end Pass

namespace Batch

/-- The pass opened with a boost. -/
def Boosts (b : Batch) (p : Pass) : Prop := b.BoostDue p.readings p.before

instance (b : Batch) : DecidablePred b.Boosts := fun p =>
  inferInstanceAs (Decidable (b.BoostDue p.readings p.before))

/-- One more pass in a running sum of the user time charged to `j`: a boost
clears it for everybody, a reset of its own clears it after the charge. -/
def tally (b : Batch) (reset : Pass → Prop) [DecidablePred reset] (j : TaskId) (sum : Nat)
    (p : Pass) : Nat :=
  let sum := if b.Boosts p then 0 else sum
  if p.task = j then if reset p then 0 else sum + p.interval else sum

/-- User time charged since the task entered its level: at the start, at a
demotion or at a boost. -/
def sinceLevel (b : Batch) (j : TaskId) (passes : List Pass) : Nat :=
  passes.foldl (b.tally Pass.Demotes j) 0

/-- User time charged since the task's slice was last refilled: at the start,
when exhausted, at a demotion or at a boost. -/
def sinceRefill (b : Batch) (j : TaskId) (passes : List Pass) : Nat :=
  passes.foldl (b.tally (fun p => p.Demotes ∨ p.Exhausts) j) 0

variable {b : Batch} {h h' : Head} {p : Pass} {passes : List Pass} {j : TaskId}

/-- A task's budgets fit the sums charged against them. -/
structure Fits (t : Task) (level refill : Nat) : Prop where
  low : t.level ≤ 2
  allot : t.level < 2 → t.allot + level = fullAllot t.level ∧ 0 < t.allot
  bottom : t.level = 2 → t.allot = fullAllot 2
  slice : t.slice + refill = fullSlice t.level
  some_ : 0 < t.slice

theorem fullSlice_pos (low : level ≤ 2) : 0 < fullSlice level := by
  match level with
  | 0 | 1 | 2 => decide

theorem fullAllot_pos (low : level ≤ 2) : 0 < fullAllot level := by
  match level with
  | 0 | 1 | 2 => decide

/-- Fresh budgets fit empty sums. -/
theorem Fits.fresh {t : Task} (low : t.level ≤ 2) (slice : t.slice = fullSlice t.level)
    (allot : t.allot = fullAllot t.level) : Fits t 0 0 := by
  refine ⟨low, fun _ => ?_, fun bottom => by rw [allot, bottom], by omega, ?_⟩
  · rw [allot]
    exact ⟨by omega, fullAllot_pos low⟩
  · rw [slice]
    exact fullSlice_pos low

theorem Fits.same {t t' : Task} (fits : Fits t level refill) (levels : t'.level = t.level)
    (slice : t'.slice = t.slice) (allot : t'.allot = t.allot) : Fits t' level refill := by
  obtain ⟨low, allotted, bottom, sliced, some_⟩ := fits
  exact ⟨levels ▸ low, by rw [levels, allot]; exact allotted, by rw [levels, allot]; exact bottom,
    by rw [levels, slice]; exact sliced, slice ▸ some_⟩

/-- A dispatch is no occasion to refill: a pass enters with the budgets the
possible boost left. -/
theorem Passed.entry_budget (passed : b.Passed h p h') (j : TaskId) :
    (p.entry.tasks j).level = (b.risen p.readings h.loop j).level ∧
      (p.entry.tasks j).slice = (b.risen p.readings h.loop j).slice ∧
      (p.entry.tasks j).allot = (b.risen p.readings h.loop j).allot := by
  by_cases mine : j = p.task
  · subst mine
    rcases passed.entered.choice with ⟨-, tasks, -⟩ | ⟨-, -, tasks, -⟩
    · rw [tasks]
      exact ⟨rfl, rfl, rfl⟩
    · rw [tasks, Function.update_self]
      exact ⟨rfl, rfl, rfl⟩
  · rw [(passed.other mine).2]
    exact ⟨rfl, rfl, rfl⟩

/-- A pass that opens with a boost enters with every live task at the top and whole. -/
theorem boost_restores (coherent : Coherent b h.loop) (passed : b.Passed h p h')
    (due : b.Boosts p) (live : (h.loop.tasks j).state ≠ .done) :
    (p.entry.tasks j).level = 0 ∧ (p.entry.tasks j).slice = fullSlice 0 ∧
      (p.entry.tasks j).allot = fullAllot 0 := by
  have now : b.BoostDue p.readings h.loop := passed.before ▸ due
  have active : b.Boosted j (h.loop.tasks j) := by
    rcases b.task_or_spare j with ⟨n, rfl⟩ | spare
    · exact ⟨n.isLt, live⟩
    · exact absurd (coherent.spare j spare) live
  have lifted : b.risen p.readings h.loop j = (h.loop.tasks j).refreshed 0 := by
    simp [Batch.risen, now, Batch.lifted, lift, active]
  obtain ⟨level, slice, allot⟩ := passed.entry_budget j
  rw [level, slice, allot, lifted]
  exact ⟨rfl, rfl, rfl⟩

/-- Without a boost a pass enters with every level and budget as the head had them. -/
theorem entry_keeps (passed : b.Passed h p h') (early : ¬ b.Boosts p) (j : TaskId) :
    (p.entry.tasks j).level = (h.loop.tasks j).level ∧
      (p.entry.tasks j).slice = (h.loop.tasks j).slice ∧
      (p.entry.tasks j).allot = (h.loop.tasks j).allot := by
  have now : ¬ b.BoostDue p.readings h.loop := passed.before ▸ early
  obtain ⟨level, slice, allot⟩ := passed.entry_budget j
  rw [level, slice, allot, Batch.risen, if_neg now]
  exact ⟨rfl, rfl, rfl⟩

/-- The ledger after the possible boost of a pass: what the task is entered with. -/
theorem entry_fits (coherent : Coherent b h.loop) (passed : b.Passed h p h')
    (live : (h.loop.tasks j).state ≠ .done) (fits : Fits (h.loop.tasks j) level refill) :
    Fits (p.entry.tasks j) (if b.Boosts p then 0 else level) (if b.Boosts p then 0 else refill) := by
  by_cases due : b.Boosts p
  · rw [if_pos due, if_pos due]
    obtain ⟨level, slice, allot⟩ := boost_restores coherent passed due live
    exact .fresh (level.trans_le (Nat.zero_le 2)) (by rw [slice, level]) (by rw [allot, level])
  · rw [if_neg due, if_neg due]
    obtain ⟨level, slice, allot⟩ := entry_keeps passed due j
    exact fits.same level slice allot

/-- The task that ran, as its budget comes out of the pass. -/
theorem own_budget (on : b.mlfq = true) (passed : b.Passed h p h') :
    b.Budgeted p.task (p.entry.trapped p.task p.event)
      (b.charged p.interval (p.entry.tasks p.task)) (p.after.tasks p.task) := by
  obtain ⟨t, settled⟩ := passed.settled
  rw [settled.tasks, Function.update_self]
  exact settled.budget on

theorem charged_on (on : b.mlfq = true) (delta : Nat) (t : Task) :
    b.charged delta t = { t with
      slice := t.slice - delta, allot := if t.level < 2 then t.allot - delta else t.allot } :=
  if_pos on

/-- One pass keeps the ledger of every task that is still alive after it. -/
theorem step_fits (on : b.mlfq = true) (coherent : Coherent b h.loop) (passed : b.Passed h p h')
    (live : (p.after.tasks j).state ≠ .done)
    (fits : (h.loop.tasks j).state ≠ .done → Fits (h.loop.tasks j) level refill) :
    Fits (p.after.tasks j) (b.tally Pass.Demotes j level p)
      (b.tally (fun p => p.Demotes ∨ p.Exhausts) j refill p) := by
  by_cases mine : j = p.task
  · subst mine
    have entry := entry_fits coherent passed (passed.live coherent) (fits (passed.live coherent))
    have budget := own_budget on passed
    rw [charged_on on] at budget
    simp only [tally, ↓reduceIte]
    cases budget with
    | ended how state => exact absurd state live
    | demoted low used state level slice allot =>
      have demotes : p.Demotes := level
      rw [if_pos demotes, if_pos (Or.inl demotes)]
      have bound : (p.entry.tasks p.task).level + 1 ≤ 2 := low
      exact .fresh (by rw [level]; exact bound) (by rw [slice, level]) (by rw [allot, level])
    | refilled left low used state level slice allot =>
      have stays : ¬ p.Demotes := by
        unfold Pass.Demotes
        dsimp only at level
        omega
      have exhausts : p.Exhausts := Nat.sub_eq_zero_iff_le.mp used
      rw [if_neg stays, if_pos (Or.inr exhausts)]
      dsimp only at left level slice allot
      refine ⟨by rw [level]; exact low, ?_, ?_, by rw [slice, level]; omega, ?_⟩
      · intro upper
        rw [level] at upper ⊢
        have whole := (entry.allot upper).1
        rw [if_pos upper] at left allot
        omega
      · intro bottom
        rw [level] at bottom
        rw [allot, if_neg (by omega)]
        exact entry.bottom bottom
      · rw [slice]
        exact fullSlice_pos low
    | inside left some_ notDone level slice allot =>
      dsimp only at left some_ level slice allot
      have stays : ¬ p.Demotes := by
        unfold Pass.Demotes
        omega
      have spares : ¬ p.Exhausts := by
        unfold Pass.Exhausts
        omega
      rw [if_neg stays, if_neg (not_or.mpr ⟨stays, spares⟩)]
      refine ⟨by rw [level]; exact entry.low, ?_, ?_, ?_, by omega⟩
      · intro upper
        rw [level] at upper ⊢
        have whole := (entry.allot upper).1
        rw [if_pos upper] at left allot
        omega
      · intro bottom
        rw [level] at bottom
        rw [allot, if_neg (by omega)]
        exact entry.bottom bottom
      · have whole := entry.slice
        rw [level, slice]
        omega
  · have same := (passed.other mine).1
    have before : (h.loop.tasks j).state ≠ .done := by
      rw [← (b.risen_state p.readings h.loop j).1, ← same]
      exact live
    have entry := entry_fits coherent passed before (fits before)
    rw [(passed.other mine).2, ← same] at entry
    simpa [tally, Ne.symm mine] using entry

theorem reaches_fits (on : b.mlfq = true) (reached : b.Reaches passes h)
    (live : (h.loop.tasks j).state ≠ .done) :
    Fits (h.loop.tasks j) (b.sinceLevel j passes) (b.sinceRefill j passes) := by
  obtain ⟨s, started, run⟩ := reached
  have coherent := start_coherent started
  induction run with
  | nil =>
    obtain ⟨s', ran, -, made, left, -⟩ := start_spec (start_bounded started)
    rw [started] at ran
    cases ran
    rcases b.task_or_spare j with ⟨n, rfl⟩ | spare
    · exact .fresh (by simp [made, created, blankTask]) (by simp only [made]; rfl)
        (by simp only [made]; rfl)
    · rw [left j spare] at live
      exact absurd rfl live
  | @snoc passes m p h' run last ih =>
    have middle := run_coherent coherent run
    have passed := step_view middle last
    rw [passed.after] at live ⊢
    simp only [sinceLevel, sinceRefill, List.foldl_append, List.foldl_cons, List.foldl_nil]
    exact step_fits on middle passed live ih

/-! ### What one pass may do to a budget -/

/-- Settling a pass never lowers a level. -/
theorem settled_level (on : b.mlfq = true) (passed : b.Passed h p h') (j : TaskId) :
    (p.entry.tasks j).level ≤ (p.after.tasks j).level := by
  by_cases mine : j = p.task
  · subst mine
    have budget := own_budget on passed
    rw [charged_on on] at budget
    cases budget with
    | ended _ _ level | refilled _ _ _ _ level | inside _ _ _ level => exact level.ge
    | demoted _ _ _ level =>
      dsimp only at level
      omega
  · rw [(passed.other mine).1, (passed.other mine).2]

/-- Without a boost, time only flows out of a live task's budgets: the task
that ran pays its interval, the others pay nothing, and only a demotion or an
exhausted slice starts a new one. -/
theorem time_is_paid (on : b.mlfq = true) (passed : b.Passed h p h')
    (early : ¬ b.Boosts p) (live : (p.after.tasks j).state ≠ .done)
    (stays : ¬ (p.task = j ∧ p.Demotes)) :
    (p.after.tasks j).level = (h.loop.tasks j).level ∧
      (p.after.tasks j).allot = (h.loop.tasks j).allot -
        (if p.task = j ∧ (h.loop.tasks j).level < 2 then p.interval else 0) ∧
      (¬ (p.task = j ∧ p.Exhausts) →
        (p.after.tasks j).slice = (h.loop.tasks j).slice - if p.task = j then p.interval else 0) := by
  obtain ⟨level, slice, allot⟩ := entry_keeps passed early j
  by_cases mine : p.task = j
  · subst mine
    have budget := own_budget on passed
    rw [charged_on on] at budget
    simp only [true_and, ↓reduceIte] at stays ⊢
    cases budget with
    | ended how state => exact absurd state live
    | demoted low used state level' => exact absurd level' stays
    | refilled left low used state level' slice' allot' =>
      dsimp only at level' slice' allot' used
      rw [level] at level' allot'
      rw [allot] at allot'
      refine ⟨level', ?_, fun spare => ?_⟩
      · rw [allot']
        split <;> rfl
      · exact absurd (Nat.sub_eq_zero_iff_le.mp used) spare
    | inside left some_ notDone level' slice' allot' =>
      dsimp only at level' slice' allot'
      rw [level] at level' allot'
      rw [allot] at allot'
      rw [slice] at slice'
      refine ⟨level', ?_, fun _ => slice'⟩
      rw [allot']
      split <;> rfl
  · have other := passed.other (Ne.symm mine)
    rw [other.1, ← other.2]
    simp [mine, level, slice, allot]

/-- A trap that does not end its task demotes it exactly when the charged time
has reached the allotment. -/
theorem demotes_iff (on : b.mlfq = true) (passed : b.Passed h p h')
    (goes : ¬ b.Ends p.task p.event.reason) :
    p.Demotes ↔ (p.entry.tasks p.task).level < 2 ∧ (p.entry.tasks p.task).allot ≤ p.interval := by
  have budget := own_budget on passed
  rw [charged_on on] at budget
  cases budget with
  | ended how => exact absurd how goes
  | demoted low used state level =>
    dsimp only at low used
    rw [if_pos low] at used
    exact ⟨fun _ => ⟨low, Nat.sub_eq_zero_iff_le.mp used⟩, fun _ => level⟩
  | refilled left _ _ _ level | inside left _ _ level =>
    dsimp only at left level
    constructor
    · intro demotes
      unfold Pass.Demotes at demotes
      omega
    · rintro ⟨low, used⟩
      refine absurd ⟨low, ?_⟩ left
      rw [if_pos low]
      exact Nat.sub_eq_zero_iff_le.mpr used

/-- A demotion is by one level, with whole budgets, to the queue tail. -/
theorem demoted_joins (on : b.mlfq = true) (passed : b.Passed h p h') (demotes : p.Demotes) :
    (p.after.tasks p.task).state = .ready ∧
      (p.after.tasks p.task).slice = fullSlice (p.after.tasks p.task).level ∧
      (p.after.tasks p.task).allot = fullAllot (p.after.tasks p.task).level ∧
      p.after.ready.contents = p.entry.ready.contents ++ [p.task] := by
  have budget := own_budget on passed
  rw [charged_on on] at budget
  unfold Pass.Demotes at demotes
  cases budget with
  | ended _ _ level | refilled _ _ _ _ level | inside _ _ _ level =>
    dsimp only at level
    omega
  | demoted low used state level slice allot =>
    refine ⟨state, by rw [slice, level], by rw [allot, level], ?_⟩
    obtain ⟨t, settled⟩ := passed.settled
    have self : p.after.tasks p.task = t := by rw [settled.tasks, Function.update_self]
    have running : (p.entry.tasks p.task).state = .running :=
      (passed.entry.running p.task).mp passed.entered.current
    rw [self] at state
    cases settled.fate with
    | ended _ stopped => rw [stopped] at state; cases state
    | requeued _ _ _ line => exact line
    | kept same =>
      rw [same] at state
      change (p.entry.tasks p.task).state = .ready at state
      rw [running] at state
      cases state

/-- The budgets of a live task at a loop head, against its history. -/
structure Ledger (b : Batch) (passes : List Pass) (j : TaskId) (t : Task) : Prop where
  low : t.level ≤ 2
  allot : t.level < 2 → t.allot + b.sinceLevel j passes = fullAllot t.level ∧ 0 < t.allot
  slice : t.slice + b.sinceRefill j passes = fullSlice t.level ∧ 0 < t.slice

/-- What the next pass may do to levels and budgets. -/
structure Metered (b : Batch) (passes : List Pass) (h : Head) (p : Pass) (h' : Head) : Prop where
  boost : b.Boosts p → ∀ j, (h.loop.tasks j).state ≠ .done → (p.entry.tasks j).level = 0 ∧
    (p.entry.tasks j).slice = fullSlice 0 ∧ (p.entry.tasks j).allot = fullAllot 0
  lowers : ∀ j, (h'.loop.tasks j).level < (h.loop.tasks j).level → b.Boosts p
  pays : ¬ b.Boosts p → ∀ j, (h'.loop.tasks j).state ≠ .done → ¬ (p.task = j ∧ p.Demotes) →
    (h'.loop.tasks j).level = (h.loop.tasks j).level ∧
    (h'.loop.tasks j).allot = (h.loop.tasks j).allot -
      (if p.task = j ∧ (h.loop.tasks j).level < 2 then p.interval else 0) ∧
    (¬ (p.task = j ∧ p.Exhausts) →
      (h'.loop.tasks j).slice = (h.loop.tasks j).slice - if p.task = j then p.interval else 0)
  demotes : ¬ b.Ends p.task p.event.reason → (p.Demotes ↔ (p.entry.tasks p.task).level < 2 ∧
    fullAllot (p.entry.tasks p.task).level ≤
      (if b.Boosts p then 0 else b.sinceLevel p.task passes) + p.interval)
  joins : p.Demotes → (h'.loop.tasks p.task).state = .ready ∧
    (h'.loop.tasks p.task).slice = fullSlice (h'.loop.tasks p.task).level ∧
    (h'.loop.tasks p.task).allot = fullAllot (h'.loop.tasks p.task).level ∧
    h'.loop.ready.contents = p.entry.ready.contents ++ [p.task]

/-- MLFQ budgets cannot be gamed. At every loop head of every run each live
task's slice and allotment are what its level grants less the user time charged
since it was granted, and neither is empty; and no pass gives time back except
by the rules. -/
theorem budgets_exact (b : Batch) (policy : b.policy = .mlfq) (reached : b.Reaches passes h) :
    (∀ j, (h.loop.tasks j).state ≠ .done → b.Ledger passes j (h.loop.tasks j)) ∧
      ∀ p h', b.Step h p h' → b.Metered passes h p h' := by
  have on : b.mlfq = true := by simp [mlfq, policy]
  have coherent := reaches_coherent reached
  refine ⟨fun j live => ?_, fun p h' step => ?_⟩
  · have fits := reaches_fits on reached live
    exact ⟨fits.low, fits.allot, fits.slice, fits.some_⟩
  have passed := step_view coherent step
  refine ⟨fun due j => boost_restores coherent passed due, ?_, ?_, ?_, ?_⟩
  · intro j drops
    by_contra early
    have same := (entry_keeps passed early j).1
    have rises := settled_level on passed j
    rw [passed.after] at drops
    omega
  · rw [passed.after]
    exact fun early j live stays => time_is_paid on passed early live stays
  · intro goes
    rw [demotes_iff on passed goes]
    have entry := entry_fits coherent passed (passed.live coherent)
      (reaches_fits on reached (passed.live coherent))
    constructor
    · rintro ⟨low, used⟩
      have whole := (entry.allot low).1
      exact ⟨low, by omega⟩
    · rintro ⟨low, used⟩
      have whole := (entry.allot low).1
      exact ⟨low, by omega⟩
  · rw [passed.after]
    exact demoted_joins on passed

end Batch

theorem budgets_exact_rehearsal : ∃ passes h, (rehearsal .mlfq).Reaches passes h ∧
    ∀ j, (h.loop.tasks j).state ≠ .done → (rehearsal .mlfq).Ledger passes j (h.loop.tasks j) := by
  have plays : ((rehearsal .mlfq).play (rehearsed 0)).isSome = true := by decide +kernel
  obtain ⟨⟨passes, h⟩, played⟩ := Option.isSome_iff_exists.mp plays
  have reached := Batch.play_reaches played
  exact ⟨passes, h, reached, (Batch.budgets_exact (rehearsal .mlfq) rfl reached).1⟩

end Neonos.Scheduler
