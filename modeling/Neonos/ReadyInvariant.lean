import Neonos.BatchSteps

/-! One queue entry for each Ready task and one processor for the Running one,
at every loop head of every run. -/
namespace Neonos.Scheduler
open StableChoice Runs

/-- Queue array, state field and `current` tell the same story. -/
structure Coherent (b : Batch) (s : Loop) : Prop where
  distinct : s.ready.contents.Nodup
  queued : ∀ i, i ∈ s.ready.contents ↔ (s.tasks i).state = .ready
  running : ∀ i, s.current = some i ↔ (s.tasks i).state = .running
  spare : ∀ i : TaskId, b.specs.length ≤ i.val → (s.tasks i).state = .done
  met : ∀ i : TaskId, i.val < b.specs.length → (s.tasks i).state ≠ .ready → (s.tasks i).first ≠ none

namespace Batch
variable {b : Batch} {r : Readings} {s s' e : Loop} {i : TaskId}

/-- A task as the loop over `specs` creates it. -/
def created (b : Batch) (i : Fin b.specs.length) (t : Task) : Task :=
  { t with frame := b.firstFrame i, state := .ready, readySince := b.base }

theorem task_injective (b : Batch) : Function.Injective b.task := Fin.castLE_injective b.fits

private theorem create_loop (todo : List (Fin b.specs.length)) (distinct : todo.Nodup) (s : Loop)
    (queue : s.ready.contents.Nodup) (fresh : ∀ i ∈ todo, b.task i ∉ s.ready.contents) :
    ∃ tasks ready, todo.foldlM b.create s = .ok { s with tasks, ready } ∧
      ready.contents = s.ready.contents ++ todo.map b.task ∧
      (∀ i ∈ todo, tasks (b.task i) = b.created i (s.tasks (b.task i))) ∧
      ∀ j, (∀ i ∈ todo, b.task i ≠ j) → tasks j = s.tasks j := by
  induction todo generalizing s with
  | nil => exact ⟨s.tasks, s.ready, rfl, by simp, by simp, fun _ _ => rfl⟩
  | cons i todo ih =>
    obtain ⟨apart, rest⟩ := List.nodup_cons.mp distinct
    obtain ⟨ready, pushed⟩ := Ready.push_succeeds queue (fresh i (by simp))
    obtain ⟨-, appended⟩ := Ready.push_ok pushed
    have turn : b.create s i =
        .ok { s.setTask (b.task i) (b.created i (s.tasks (b.task i))) with ready } := by
      have same : (b.task i).val = i.val := rfl
      rw [same] at pushed
      simp only [create, pushed]
      rfl
    have other (j : Fin b.specs.length) (member : j ∈ todo) : b.task j ≠ b.task i := fun same =>
      apart (b.task_injective same ▸ member)
    obtain ⟨tasks, ready', ran, line, made, left⟩ := ih rest
      { s.setTask (b.task i) (b.created i (s.tasks (b.task i))) with ready }
      (by
        rw [appended]
        exact List.nodup_append.mpr ⟨queue, by simp, by
          intro a here c only
          rw [List.mem_singleton.mp only]
          exact fun same => fresh i (by simp) (same ▸ here)⟩)
      (by
        intro j member
        rw [appended, List.mem_append, not_or]
        exact ⟨fresh j (by simp [member]), by simpa using other j member⟩)
    refine ⟨tasks, ready', ?_, ?_, ?_, ?_⟩
    · rw [List.foldlM_cons, turn]
      exact ran
    · rw [line, appended]
      simp
    · intro j member
      rcases List.mem_cons.mp member with rfl | later
      · rw [left _ (fun k member => other k member)]
        simp [Loop.setTask]
      · rw [made j later]
        simp [Loop.setTask, Function.update_of_ne (other j later)]
    · intro j none_
      rw [left j (fun k member => none_ k (by simp [member]))]
      simp [Loop.setTask, Function.update_of_ne (none_ i (by simp)).symm]

/-- The first loop head, whenever the first boost deadline fits a `usize`. -/
theorem start_spec (bounded : b.base + 20 * T ≤ usizeMax) :
    ∃ s, b.start = .ok s ∧ s.ready.contents = (List.finRange b.specs.length).map b.task ∧
      (∀ i, s.tasks (b.task i) = b.created i blankTask) ∧
      (∀ j : TaskId, b.specs.length ≤ j.val → s.tasks j = blankTask) ∧ s.current = none ∧
      s.boost = b.base + 20 * T ∧ s.switches = 0 ∧ s.trace = [] ∧ s.dropped = 0 ∧ s.boosts = 0 ∧
      s.exchange = b.mailbox ∧ s.deadline = 0 ∧ s.stie = false := by
  obtain ⟨tasks, ready, ran, line, made, left⟩ := create_loop (List.finRange b.specs.length)
    (List.nodup_finRange _) (b.opening (b.base + 20 * T)) (by simp [opening]) (by simp [opening])
  have started : b.start = .ok { b.opening (b.base + 20 * T) with tasks, ready } := by
    simp only [start, checkedAdd, if_pos bounded]
    exact ran
  refine ⟨_, started, ?_, fun i => made i (List.mem_finRange i), ?_, rfl, rfl, rfl, rfl, rfl, rfl, rfl,
    rfl, rfl⟩
  · simpa [opening] using line
  · intro j spare
    apply left j
    rintro i - rfl
    exact absurd i.isLt (Nat.not_lt.mpr spare)

theorem start_bounded (started : b.start = .ok s) : b.base + 20 * T ≤ usizeMax := by
  unfold start at started
  simp only [bind_ok, checkedAdd_ok] at started
  exact started.choose_spec.1.1

/-- A table slot either belongs to a spec or lies past all of them. -/
theorem task_or_spare (b : Batch) (j : TaskId) :
    (∃ i, b.task i = j) ∨ b.specs.length ≤ j.val := by
  by_cases known : j.val < b.specs.length
  · exact .inl ⟨⟨j.val, known⟩, rfl⟩
  · exact .inr (Nat.le_of_not_lt known)

theorem start_coherent (started : b.start = .ok s) : Coherent b s := by
  obtain ⟨s', ran, line, made, left, idle, -⟩ := start_spec (start_bounded started)
  rw [started] at ran
  cases ran
  refine ⟨?_, ?_, ?_, ?_, ?_⟩
  · rw [line]
    exact (List.nodup_finRange _).map b.task_injective
  · intro j
    rw [line, List.mem_map]
    rcases b.task_or_spare j with ⟨i, rfl⟩ | spare
    · simp [made, created]
    · simp only [left j spare, blankTask, List.mem_finRange, true_and, reduceCtorEq, iff_false]
      rintro ⟨i, rfl⟩
      exact absurd i.isLt (Nat.not_lt.mpr spare)
  · intro j
    rcases b.task_or_spare j with ⟨i, rfl⟩ | spare
    · simp [idle, made, created]
    · simp [idle, left j spare, blankTask]
  · intro j spare
    rw [left j spare]
    rfl
  · intro j known notReady
    rcases b.task_or_spare j with ⟨i, rfl⟩ | spare
    · simp [made, created] at notReady
    · exact absurd known (Nat.not_lt.mpr spare)

/-! ### Keeping the invariant -/

/-- A boost changes levels and budgets, never a state or a first dispatch. -/
theorem risen_state (b : Batch) (r : Readings) (s : Loop) (i : TaskId) :
    (b.risen r s i).state = (s.tasks i).state ∧ (b.risen r s i).first = (s.tasks i).first := by
  by_cases due : b.BoostDue r s
  · by_cases active : b.Boosted i (s.tasks i)
    · simp [risen, due, lifted, lift, active, Task.refreshed]
    · simp [risen, due, lifted, lift, active]
  · simp [risen, due]

/-- A boost passes a Done task by. -/
theorem risen_done (stopped : (s.tasks j).state = .done) : b.risen r s j = s.tasks j := by
  have untouched : ¬ b.Boosted j (s.tasks j) := fun active => active.2 stopped
  by_cases due : b.BoostDue r s
  · simp [risen, due, lifted, lift, untouched]
  · simp [risen, due]

theorem entered_coherent (coherent : Coherent b s) (entered : b.Entered r s i e) : Coherent b e := by
  have state (j : TaskId) := (b.risen_state r s j).1
  have first (j : TaskId) := (b.risen_state r s j).2
  rcases entered.choice with ⟨held, tasks, ready, -⟩ | ⟨idle, taken, tasks, -⟩
  · refine ⟨?_, ?_, ?_, ?_, ?_⟩
    · rw [ready]
      exact coherent.distinct
    · intro j
      rw [ready, tasks, state]
      exact coherent.queued j
    · intro j
      rw [entered.current, ← held, tasks, state]
      exact coherent.running j
    · intro j spare
      rw [tasks, state]
      exact coherent.spare j spare
    · intro j known notReady
      rw [tasks, state] at notReady
      rw [tasks, first]
      exact coherent.met j known notReady
  · obtain ⟨gone, rest⟩ := taken.nodup coherent.distinct
    have waiting : (s.tasks i).state = .ready := (coherent.queued i).mp taken.mem
    have self : e.tasks i = started r (b.risen r s i) := by rw [tasks, Function.update_self]
    have other (j : TaskId) (different : j ≠ i) : e.tasks j = b.risen r s j := by
      rw [tasks, Function.update_of_ne different]
    refine ⟨rest, ?_, ?_, ?_, ?_⟩
    · intro j
      by_cases same : j = i
      · subst same
        simp [self, started, gone]
      · rw [other j same, state, ← coherent.queued j, taken.mem_iff]
        simp [same]
    · intro j
      by_cases same : j = i
      · subst same
        simp [entered.current, self, started]
      · have off := (coherent.running j).not.mp (by simp [idle])
        rw [other j same, state]
        simp [entered.current, Ne.symm same, off]
    · intro j spare
      have different : j ≠ i := by
        rintro rfl
        rw [coherent.spare j spare] at waiting
        cases waiting
      rw [other j different, state]
      exact coherent.spare j spare
    · intro j known notReady
      by_cases same : j = i
      · subst same
        simp [self, started]
      · rw [other j same, state] at notReady
        rw [other j same, first]
        exact coherent.met j known notReady

/-- The mailbox and the frame slots are no part of the invariant. -/
theorem trapped_coherent (coherent : Coherent b e) (event : Exchange) :
    Coherent b (e.trapped i event) :=
  ⟨coherent.distinct, coherent.queued, coherent.running, coherent.spare, coherent.met⟩

theorem settled_coherent {t : Task} (coherent : Coherent b e) (held : e.current = some i)
    (settled : b.Settled r i e t s') : Coherent b s' := by
  have running : (e.tasks i).state = .running := (coherent.running i).mp held
  have self : s'.tasks i = t := by rw [settled.tasks, Function.update_self]
  have other (j : TaskId) (different : j ≠ i) : s'.tasks j = e.tasks j := by
    rw [settled.tasks, Function.update_of_ne different]
  have unqueued : i ∉ e.ready.contents := by
    rw [coherent.queued i, running]
    simp
  have alone (j : TaskId) (different : j ≠ i) : (e.tasks j).state ≠ .running := by
    intro also
    have twice := (coherent.running j).mpr also
    rw [held] at twice
    exact different (Option.some.inj twice).symm
  have spare : ∀ j : TaskId, b.specs.length ≤ j.val → (s'.tasks j).state = .done := by
    intro j beyond
    have different : j ≠ i := by
      rintro rfl
      rw [coherent.spare j beyond] at running
      cases running
    rw [other j different]
    exact coherent.spare j beyond
  have met : ∀ j : TaskId, j.val < b.specs.length → (s'.tasks j).state ≠ .ready →
      (s'.tasks j).first ≠ none := by
    intro j known notReady
    by_cases same : j = i
    · subst same
      rw [self, settled.first]
      exact coherent.met j known (by rw [running]; simp)
    · rw [other j same] at notReady ⊢
      exact coherent.met j known notReady
  cases settled.fate with
  | ended how state stamp ready current =>
    refine ⟨ready ▸ coherent.distinct, ?_, ?_, spare, met⟩
    · intro j
      rw [ready]
      by_cases same : j = i
      · subst same
        simp [self, state, unqueued]
      · rw [other j same]
        exact coherent.queued j
    · intro j
      by_cases same : j = i
      · subst same
        simp [current, self, state]
      · rw [other j same]
        simp [current, alone j same]
  | requeued state since fresh ready current =>
    refine ⟨?_, ?_, ?_, spare, met⟩
    · rw [ready]
      refine List.nodup_append.mpr ⟨coherent.distinct, by simp, ?_⟩
      intro a here c only
      rw [List.mem_singleton.mp only]
      exact fun same => fresh (same ▸ here)
    · intro j
      rw [ready, List.mem_append, List.mem_singleton]
      by_cases same : j = i
      · subst same
        simp [self, state]
      · rw [other j same, ← coherent.queued j]
        simp [same]
    · intro j
      by_cases same : j = i
      · subst same
        simp [current, self, state]
      · rw [other j same]
        simp [current, alone j same]
  | kept state since ready current =>
    refine ⟨ready ▸ coherent.distinct, ?_, ?_, spare, met⟩
    · intro j
      rw [ready]
      by_cases same : j = i
      · subst same
        rw [self, state]
        exact coherent.queued j
      · rw [other j same]
        exact coherent.queued j
    · intro j
      rw [current]
      by_cases same : j = i
      · subst same
        rw [self, state]
        exact coherent.running j
      · rw [other j same]
        exact coherent.running j

/-! ### Passes and runs -/

/-- One pass from a coherent head, both halves spelled out. -/
structure Passed (b : Batch) (h : Head) (p : Pass) (h' : Head) : Prop where
  before : p.before = h.loop
  after : h'.loop = p.after
  entered : b.Entered p.readings h.loop p.task p.entry
  entry : Coherent b p.entry
  settled : ∃ t, b.Settled p.readings p.task (p.entry.trapped p.task p.event) t p.after
  coherent : Coherent b p.after

theorem step_view (coherent : Coherent b h.loop) (step : b.Step h p h') : b.Passed h p h' := by
  obtain ⟨before, -, entered, settled, rfl⟩ := step
  rw [before] at entered
  have first := enter_view entered
  have entry := entered_coherent coherent first
  have trapped := trapped_coherent (i := p.task) entry p.event
  have running : ((p.entry.trapped p.task p.event).tasks p.task).state = .running :=
    (trapped.running p.task).mp first.current
  obtain ⟨t, second⟩ := settle_view running settled
  exact ⟨before, rfl, first, entry, ⟨t, second⟩, settled_coherent trapped first.current second⟩

theorem step_coherent (coherent : Coherent b h.loop) (step : b.Step h p h') : Coherent b h'.loop := by
  have view := step_view coherent step
  rw [view.after]
  exact view.coherent

theorem run_coherent (coherent : Coherent b h.loop) (run : Run b.Step h passes h') :
    Coherent b h'.loop :=
  run.preserves (fun h => Coherent b h.loop) (fun _ _ _ => step_coherent) coherent

theorem reaches_coherent (reached : b.Reaches passes h) : Coherent b h.loop := by
  obtain ⟨s, started, run⟩ := reached
  exact run_coherent (start_coherent started) run

/-- A task outside the pass is only ever touched by a boost. -/
theorem Passed.other (passed : b.Passed h p h') (different : j ≠ p.task) :
    p.after.tasks j = b.risen p.readings h.loop j ∧ p.entry.tasks j = b.risen p.readings h.loop j := by
  obtain ⟨t, settled⟩ := passed.settled
  have entry : p.entry.tasks j = b.risen p.readings h.loop j := by
    rcases passed.entered.choice with ⟨-, tasks, -⟩ | ⟨-, -, tasks, -⟩
    · rw [tasks]
    · rw [tasks, Function.update_of_ne different]
  refine ⟨?_, entry⟩
  rw [settled.tasks, Function.update_of_ne different]
  exact entry

/-- A task that is not Ready and not Running does not get a pass. -/
theorem Passed.live (coherent : Coherent b h.loop) (passed : b.Passed h p h') :
    (h.loop.tasks p.task).state ≠ .done := by
  rcases passed.entered.choice with ⟨held, -⟩ | ⟨-, taken, -⟩
  · rw [(coherent.running p.task).mp held]
    simp
  · rw [(coherent.queued p.task).mp taken.mem]
    simp

/-- Once a task is Done no pass runs it and its record stays as it is. -/
theorem done_stays (coherent : Coherent b h.loop) (stopped : (h.loop.tasks j).state = .done)
    (run : Run b.Step h passes h') :
    h'.loop.tasks j = h.loop.tasks j ∧ ∀ p ∈ passes, p.task ≠ j := by
  induction run with
  | nil => exact ⟨rfl, by simp⟩
  | @snoc passes m p h' run last ih =>
    obtain ⟨same, apart⟩ := ih
    have middle := run_coherent coherent run
    have passed := step_view middle last
    have different : j ≠ p.task := by
      rintro rfl
      exact passed.live middle (by rw [same]; exact stopped)
    refine ⟨?_, ?_⟩
    · rw [passed.after, (passed.other different).1, ← same]
      exact risen_done (by rw [same]; exact stopped)
    · intro q member
      rcases List.mem_append.mp member with earlier | now
      · exact apart q earlier
      · rw [List.mem_singleton.mp now]
        exact different.symm

/-- The loop only stops when every task is Done. -/
theorem break_done (coherent : Coherent b s) (stops : b.enter r s = .ok none) (j : TaskId) :
    (s.tasks j).state = .done := by
  obtain ⟨idle, empty⟩ := break_view stops
  have notReady := (coherent.queued j).not.mp (by simp [empty])
  have notRunning := (coherent.running j).not.mp (by simp [idle])
  cases state : (s.tasks j).state with
  | ready => exact absurd state notReady
  | running => exact absurd state notRunning
  | done => rfl

/-! ### No assertion of the queue fails -/

theorem coherent_checks (coherent : Coherent b s) : s.ready.Checks s.tasks b.specs.length := by
  have known (i : TaskId) (member : i ∈ s.ready.contents) : i.val < b.specs.length := by
    rcases b.task_or_spare i with ⟨k, rfl⟩ | spare
    · exact k.isLt
    · have stopped := coherent.spare i spare
      rw [(coherent.queued i).mp member] at stopped
      cases stopped
  refine ⟨?_, fun i member => (coherent.queued i).mp member, ?_, ?_⟩
  · have inside : s.ready.contents.map Fin.val ⊆ List.range b.specs.length := by
      intro k member
      obtain ⟨i, waiting, rfl⟩ := List.mem_map.mp member
      exact List.mem_range.mpr (known i waiting)
    have distinct : (s.ready.contents.map Fin.val).Nodup :=
      coherent.distinct.map Fin.val_injective
    simpa using (distinct.subperm inside).length_le
  · intro i _
    by_cases waiting : i ∈ s.ready.contents
    · rw [if_pos ((coherent.queued i).mp waiting)]
      exact List.count_eq_one_of_mem coherent.distinct waiting
    · rw [if_neg (fun state => waiting ((coherent.queued i).mpr state))]
      exact List.count_eq_zero.mpr waiting
  · cases held : s.current with
    | none =>
      have nobody : (List.finRange N).filter
          (fun id => id.val < b.specs.length ∧ (s.tasks id).state = .running) = [] := by
        apply List.filter_eq_nil_iff.mpr
        intro i _
        have off := (coherent.running i).not.mp (by simp [held])
        simp [off]
      rw [nobody]
      exact Nat.zero_le 1
    | some i =>
      have inside : (List.finRange N).filter
          (fun id => id.val < b.specs.length ∧ (s.tasks id).state = .running) ⊆ [i] := by
        intro j member
        have running := of_decide_eq_true (List.mem_filter.mp member).2
        have same := (coherent.running j).mpr running.2
        rw [held] at same
        exact List.mem_singleton.mpr (Option.some.inj same).symm
      exact (((List.nodup_finRange N).filter _).subperm inside).length_le

/-- The panics of the queue's own assertions and of `ready.push(..).unwrap()`. -/
def OfQueue : Panic → Prop
  | .readyCheck => True
  | .enqueue _ => True
  | _ => False

theorem checkedAdd_error (own : ¬ OfQueue cause) (failed : checkedAdd a c cause = .error panicked) :
    ¬ OfQueue panicked := by
  unfold checkedAdd at failed
  split at failed <;> cases failed
  exact own

theorem after_error (failed : Scheduler.after interval now = .error panicked) :
    ¬ OfQueue panicked := by
  unfold Scheduler.after at failed
  split at failed
  · exact checkedAdd_error (by simp [OfQueue]) failed
  · cases failed
    simp [OfQueue]

theorem at_error {table : List Nat} (failed : at_ table index = .error panicked) :
    ¬ OfQueue panicked := by
  unfold at_ at failed
  split at failed <;> cases failed
  simp [OfQueue]

theorem bump_error {profile : Profile} (failed : profile.bump counter = .error panicked) :
    ¬ OfQueue panicked := by
  obtain ⟨-, rfl⟩ := Profile.bump_error.mp failed
  simp [OfQueue]

theorem sub_error {profile : Profile} (own : ¬ OfQueue cause) (failed : profile.sub a c cause = .error panicked) :
    ¬ OfQueue panicked := by
  unfold Profile.sub at failed
  split at failed
  · cases failed
  · split at failed <;> cases failed
    exact own

theorem mul_error {profile : Profile} (own : ¬ OfQueue cause) (failed : profile.mul a c cause = .error panicked) :
    ¬ OfQueue panicked := by
  unfold Profile.mul at failed
  split at failed
  · cases failed
  · split at failed <;> cases failed
    exact own

theorem raise_error (failed : b.raise r s = .error panicked) : ¬ OfQueue panicked := by
  unfold raise at failed
  split at failed
  · rw [boost_loop] at failed
    simp only [bind_error, reduceCtorEq, Except.ok.injEq, false_or, exists_eq_left', or_false,
      and_false, exists_false] at failed
    rcases failed with failed | ⟨_, -, failed | ⟨_, -, failed | ⟨_, -, failed⟩⟩⟩
    · exact bump_error failed
    · exact sub_error (by simp [OfQueue]) failed
    · exact mul_error (by simp [OfQueue]) failed
    · exact checkedAdd_error (by simp [OfQueue]) failed
  · cases failed

theorem dispatch_error (failed : b.dispatch r s = .error panicked) : ¬ OfQueue panicked := by
  unfold dispatch at failed
  split at failed
  · cases failed
  · split at failed
    · cases failed
    · simp only [bind_error, reduceCtorEq, and_false, exists_false, or_false] at failed
      rcases failed with late | ⟨_, -, full⟩
      · exact after_error late
      · exact bump_error full

theorem arm_error (failed : b.arm r i s = .error panicked) : ¬ OfQueue panicked := by
  unfold arm at failed
  dsimp only at failed
  split at failed
  · rcases bind_error.mp failed with picked | ⟨_, -, failed⟩
    · unfold pickDeadline at picked
      split at picked
      · exact after_error picked
      · cases picked
    · split at failed <;> cases failed
  · cases failed

theorem enter_checks (coherent : Coherent b s) (r : Readings) : b.enter r s ≠ .error .readyCheck := by
  intro failed
  unfold enter at failed
  rw [if_pos (coherent_checks coherent)] at failed
  rcases bind_error.mp failed with lifted | ⟨raised, -, failed⟩
  · exact raise_error lifted trivial
  · rcases bind_error.mp failed with picked | ⟨pick, -, failed⟩
    · exact dispatch_error picked trivial
    · cases pick with
      | none => cases failed
      | some pick =>
        rcases bind_error.mp failed with armed | ⟨_, -, failed⟩
        · exact arm_error armed trivial
        · cases failed

theorem charge_error {t : Task} (failed : b.charge r time t = .error panicked) :
    ¬ OfQueue panicked := by
  unfold charge at failed
  split at failed
  · rcases bind_error.mp failed with early | ⟨_, -, failed⟩
    · unfold checkedSub at early
      split at early <;> cases early
      simp [OfQueue]
    · cases failed
  · cases failed

theorem answer_error {t : Task} (failed : b.answer r i s t = .error panicked) :
    ¬ OfQueue panicked := by
  unfold answer at failed
  split at failed
  · split at failed <;> cases failed
    simp [OfQueue]
  · split at failed
    · cases failed
      simp [OfQueue]
    · split at failed <;> cases failed
      simp [OfQueue]
  · cases failed
  · split at failed
    · dsimp only at failed
      split at failed
      · cases failed
      · rcases bind_error.mp failed with late | ⟨_, -, failed⟩
        · exact after_error late
        · cases failed
    · cases failed
  · cases failed

theorem account_error {t : Task} (failed : b.account s t requeue = .error panicked) :
    ¬ OfQueue panicked := by
  unfold account at failed
  split at failed
  · rcases bind_error.mp failed with demoted | ⟨_, -, failed⟩
    · unfold demote at demoted
      split at demoted
      · rcases bind_error.mp demoted with refill | ⟨_, -, demoted⟩
        · unfold Task.budget at refill
          rcases bind_error.mp refill with out | ⟨_, -, refill⟩
          · exact at_error out
          · rcases bind_error.mp refill with out | ⟨_, -, refill⟩
            · exact at_error out
            · cases refill
        · cases demoted
      · split at demoted
        · rcases bind_error.mp demoted with out | ⟨_, -, demoted⟩
          · exact at_error out
          · cases demoted
        · cases demoted
    · cases failed
  · split at failed <;> cases failed

/-- The Running task can always go back into the queue. -/
theorem settle_enqueues (coherent : Coherent b s) (held : s.current = some i) (r : Readings)
    (error : PushError) : b.settle r i s ≠ .error (.enqueue error) := by
  intro failed
  unfold settle at failed
  rcases bind_error.mp failed with unpaid | ⟨t₀, -, failed⟩
  · exact charge_error unpaid trivial
  rcases bind_error.mp failed with unanswered | ⟨⟨s₁, t₁, flag⟩, answered, failed⟩
  · exact answer_error unanswered trivial
  rcases bind_error.mp failed with unaccounted | ⟨⟨t₂, requeue⟩, -, failed⟩
  · exact account_error unaccounted trivial
  rcases bind_error.mp failed with unstored | ⟨_, -, failed⟩
  · obtain ⟨_, _, _, _, _, rfl⟩ := answered_loop (answer_ok answered)
    have unqueued : i ∉ s.ready.contents := by
      rw [coherent.queued i, (coherent.running i).mp held]
      simp
    obtain ⟨ready, pushed⟩ := Ready.push_succeeds coherent.distinct unqueued
    unfold store at unstored
    dsimp only at unstored
    rw [pushed] at unstored
    split at unstored <;> cases unstored
  · cases (Loop.record_error failed).1

theorem start_enqueues (b : Batch) (error : PushError) : b.start ≠ .error (.enqueue error) := by
  intro failed
  by_cases bounded : b.base + 20 * T ≤ usizeMax
  · obtain ⟨s, started, -⟩ := start_spec bounded
    rw [started] at failed
    cases failed
  · simp only [start, checkedAdd, if_neg bounded] at failed
    cases failed

/-- In every run, at every loop head: each Ready task is queued exactly once
and nothing else is, the Running task is `current`, and Done is final. So the
queue's assertions and pushes cannot fail, and the loop only stops when every
task of the batch is Done and has been dispatched. -/
theorem ready_queue_exact (b : Batch) (reached : b.Reaches passes h) :
    h.loop.ready.contents.Nodup ∧
    (∀ id ∈ h.loop.ready.contents, id.val < b.specs.length) ∧
    (∀ id, id ∈ h.loop.ready.contents ↔ (h.loop.tasks id).state = .ready) ∧
    (∀ i, h.loop.current = some i ↔ (h.loop.tasks i).state = .running ∧
      ∀ j, (h.loop.tasks j).state = .running → j = i) ∧
    (∀ id later h', (h.loop.tasks id).state = .done → Run b.Step h later h' →
      h'.loop.tasks id = h.loop.tasks id ∧ id ∉ h'.loop.ready.contents ∧
        h'.loop.current ≠ some id ∧ ∀ p ∈ later, p.task ≠ id) ∧
    (∀ error, b.start ≠ .error (.enqueue error)) ∧
    (∀ r, h.loop.ready.Checks h.loop.tasks b.specs.length ∧ b.enter r h.loop ≠ .error .readyCheck) ∧
    (∀ r i e event error, b.enter r h.loop = .ok (some (i, e)) →
      b.settle r i (e.trapped i event) ≠ .error (.enqueue error)) ∧
    (∀ r, b.enter r h.loop = .ok none → ∀ id : TaskId, id.val < b.specs.length →
      (h.loop.tasks id).state = .done ∧ (h.loop.tasks id).first ≠ none) := by
  have coherent := reaches_coherent reached
  refine ⟨coherent.distinct, ?_, coherent.queued, ?_, ?_, start_enqueues b, ?_, ?_, ?_⟩
  · intro id member
    rcases b.task_or_spare id with ⟨k, rfl⟩ | spare
    · exact k.isLt
    · have stopped := coherent.spare id spare
      rw [(coherent.queued id).mp member] at stopped
      cases stopped
  · intro i
    constructor
    · intro held
      refine ⟨(coherent.running i).mp held, fun j running => ?_⟩
      have also := (coherent.running j).mpr running
      rw [held] at also
      exact (Option.some.inj also).symm
    · exact fun only => (coherent.running i).mpr only.1
  · intro id later h' stopped run
    obtain ⟨same, apart⟩ := done_stays coherent stopped run
    have after := run_coherent coherent run
    refine ⟨same, ?_, ?_, apart⟩
    · rw [after.queued id, same, stopped]
      simp
    · rw [Ne, after.running id, same, stopped]
      simp
  · exact fun r => ⟨coherent_checks coherent, enter_checks coherent r⟩
  · intro r i e event error entered
    have view := enter_view entered
    exact settle_enqueues (trapped_coherent (entered_coherent coherent view) event) view.current r error
  · intro r stops id known
    have stopped := break_done coherent stops id
    exact ⟨stopped, coherent.met id known (by simp [stopped])⟩

/-! ### Executed runs are runs -/

theorem drive_cons {r : Readings} {event : Exchange} {inputs : List (Readings × Exchange)}
    (driven : b.drive h ((r, event) :: inputs) = some (passes, h')) : ∃ i e s rest,
      r.Nondecreasing h.clock event.time ∧ b.enter r h.loop = .ok (some (i, e)) ∧
      b.settle r i (e.trapped i event) = .ok s ∧ b.drive ⟨s, r.requeued⟩ inputs = some (rest, h') ∧
      passes = ⟨h.loop, r, i, e, event, s⟩ :: rest := by
  unfold drive at driven
  split at driven
  · rename_i clock
    split at driven
    · rename_i i e entered
      split at driven
      · rename_i s settled
        obtain ⟨⟨rest, last⟩, ran, same⟩ := Option.map_eq_some_iff.mp driven
        simp only [Prod.mk.injEq] at same
        obtain ⟨rfl, rfl⟩ := same
        exact ⟨i, e, s, rest, clock, entered, settled, ran, rfl⟩
      · cases driven
    · cases driven
  · cases driven

theorem drive_nil (driven : b.drive h [] = some (passes, h')) : passes = [] ∧ h' = h := by
  simp only [drive, Option.some.injEq, Prod.mk.injEq] at driven
  exact ⟨driven.1.symm, driven.2.symm⟩

/-- The first input is a pass. -/
theorem drive_step {r : Readings} {event : Exchange} {inputs : List (Readings × Exchange)}
    (driven : b.drive h ((r, event) :: inputs) = some (passes, h')) : ∃ p m rest, b.Step h p m ∧ p.event = event ∧
      b.drive m inputs = some (rest, h') ∧ passes = p :: rest := by
  obtain ⟨i, e, s, rest, clock, entered, settled, ran, rfl⟩ := drive_cons driven
  exact ⟨_, _, rest, ⟨rfl, clock, entered, settled, rfl⟩, rfl, ran, rfl⟩

theorem drive_run {inputs : List (Readings × Exchange)}
    (driven : b.drive h inputs = some (passes, h')) : Run b.Step h passes h' := by
  induction inputs generalizing h passes with
  | nil =>
    obtain ⟨rfl, rfl⟩ := drive_nil driven
    exact .nil
  | cons input inputs ih =>
    obtain ⟨p, m, rest, step, -, ran, rfl⟩ := drive_step driven
    exact .cons step (ih ran)

theorem toOption_some {x : Except ε α} : x.toOption = some a ↔ x = .ok a := by
  cases x <;> simp [Except.toOption]

theorem play_drives {inputs : List (Readings × Exchange)} (played : b.play inputs = some (passes, h)) :
    ∃ s, b.start = .ok s ∧ b.drive ⟨s, b.base⟩ inputs = some (passes, h) := by
  obtain ⟨s, started, driven⟩ := Option.bind_eq_some_iff.mp played
  exact ⟨s, toOption_some.mp started, driven⟩

theorem play_reaches {inputs : List (Readings × Exchange)}
    (played : b.play inputs = some (passes, h)) : b.Reaches passes h := by
  obtain ⟨s, started, driven⟩ := play_drives played
  exact ⟨s, started, drive_run driven⟩

end Batch

/-- All readings of a pass at one instant, with the trap at a later one. -/
def Readings.instant (now trap : Nat) : Readings :=
  ⟨now, now, now, now, now, now, now, trap, trap⟩

/-- Two tasks: from `now` on the first runs until its timer trap, then the
second until it exits. -/
def rehearsal (policy : Policy) : Batch where
  profile := .dev
  policy
  specs := [Spec.new 1 10, Spec.new 2 5]
  nonempty := by simp
  fits := by decide
  image := ⟨0x80300000, 0x80340000, 0x80201000, 0x80202000, 0x80201000, 0x80201100⟩
  sstatus := 0
  mailbox := ⟨0, ZERO_FRAME, .syscall, 0⟩
  base := 0

def rehearsed (now : Nat) : List (Readings × Exchange) :=
  [(.instant now (now + 10000), ⟨0, ZERO_FRAME, .timer, now + 10000⟩),
    (.instant (now + 10000) (now + 15000), ⟨0, ZERO_FRAME, .exit 0, now + 15000⟩)]

theorem ready_queue_exact_rehearsal : ∃ passes h, (rehearsal .mlfq).Reaches passes h ∧
    h.loop.ready.contents.Nodup ∧
    ∀ id, id ∈ h.loop.ready.contents ↔ (h.loop.tasks id).state = .ready := by
  have plays : ((rehearsal .mlfq).play (rehearsed 0)).isSome = true := by decide +kernel
  obtain ⟨⟨passes, h⟩, played⟩ := Option.isSome_iff_exists.mp plays
  have reached := Batch.play_reaches played
  have exact_ := Batch.ready_queue_exact (rehearsal .mlfq) reached
  exact ⟨passes, h, reached, exact_.1, exact_.2.2.1⟩

end Neonos.Scheduler
