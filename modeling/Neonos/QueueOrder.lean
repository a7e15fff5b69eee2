import Neonos.ReadyInvariant

/-! Who runs next. Under every policy a dispatch takes the earliest waiting
task of least priority, so waiting lines only shorten from the front: plain
rotation without levels, strict priority with levels, and a bounded number of
dispatches after each boost. -/
namespace Neonos.Scheduler
open StableChoice Runs

/-- The task a pass takes out of the queue, when it dispatches. -/
def Pass.dispatched (p : Pass) : Option TaskId := if p.before.current = none then some p.task else none

/-- The task a pass puts back at the queue tail. -/
def Pass.requeued (p : Pass) : Option TaskId :=
  if p.after.current = none ∧ (p.after.tasks p.task).state = .ready then some p.task else none

/-- All tasks chosen by a history, in order. -/
def dispatches (passes : List Pass) : List TaskId := passes.filterMap Pass.dispatched

/-- All tasks that joined the queue: the specs in order, then the requeued ones. -/
def Batch.arrivals (b : Batch) (passes : List Pass) : List TaskId :=
  (List.finRange b.specs.length).map b.task ++ passes.filterMap Pass.requeued

@[simp] theorem dispatches_append (first second : List Pass) :
    dispatches (first ++ second) = dispatches first ++ dispatches second := by
  simp [dispatches]

theorem dispatches_single (p : Pass) : dispatches [p] = p.dispatched.toList := by
  cases same : p.dispatched <;> simp [dispatches, same]

namespace Batch
variable {b : Batch} {h h' : Head} {p : Pass} {passes later : List Pass} {waiting : TaskId}

/-- What one pass does to the waiting line: a choice at the front when it
dispatches, and at most one arrival at the tail. -/
structure Moved (b : Batch) (h : Head) (p : Pass) (h' : Head) : Prop where
  chosen : (p.dispatched = none ∧ h.loop.current = some p.task ∧
      p.entry.ready.contents = h.loop.ready.contents) ∨
    (p.dispatched = some p.task ∧ h.loop.current = none ∧
      Takes (priority b.mlfq (b.risen p.readings h.loop)) h.loop.ready.contents p.task
        p.entry.ready.contents)
  joined : h'.loop.ready.contents = p.entry.ready.contents ++ p.requeued.toList
  unqueued : p.task ∉ p.entry.ready.contents

theorem moved (passed : b.Passed h p h') : b.Moved h p h' := by
  obtain ⟨t, settled⟩ := passed.settled
  have self : p.after.tasks p.task = t := by rw [settled.tasks, Function.update_self]
  have running : (p.entry.tasks p.task).state = .running :=
    (passed.entry.running p.task).mp passed.entered.current
  have unqueued : p.task ∉ p.entry.ready.contents := by
    rw [passed.entry.queued, running]
    simp
  refine ⟨?_, ?_, unqueued⟩
  · rcases passed.entered.choice with ⟨held, -, ready, -⟩ | ⟨idle, taken, -⟩
    · exact .inl ⟨by simp [Pass.dispatched, passed.before, held], held, by rw [ready]⟩
    · exact .inr ⟨by simp [Pass.dispatched, passed.before, idle], idle, taken⟩
  · rw [passed.after]
    cases settled.fate with
    | ended how state stamp ready current =>
      have stays : p.requeued = none := by simp [Pass.requeued, self, state]
      rw [ready, stays]
      simp [Loop.trapped]
    | requeued state since fresh ready current =>
      have goes : p.requeued = some p.task := by simp [Pass.requeued, self, state, current]
      rw [ready, goes]
      rfl
    | kept state since ready current =>
      have stays : p.requeued = none := by
        simp [Pass.requeued, current, Loop.trapped, passed.entered.current]
      rw [ready, stays]
      simp [Loop.trapped]

/-- Without levels the line is a queue: what was waiting, then what joined, is
what was chosen, then what is waiting. -/
theorem fifo_conserves (fifo : b.mlfq = false) (coherent : Coherent b h.loop)
    (run : Run b.Step h later h') :
    h.loop.ready.contents ++ later.filterMap Pass.requeued =
      dispatches later ++ h'.loop.ready.contents := by
  induction run with
  | nil => simp [dispatches]
  | @snoc later m p h' run last ih =>
    have middle := run_coherent coherent run
    have move := moved (step_view middle last)
    have line : m.loop.ready.contents = p.dispatched.toList ++ p.entry.ready.contents := by
      rcases move.chosen with ⟨none_, -, same⟩ | ⟨some_, -, taken⟩
      · rw [none_, same]
        rfl
      · rw [some_]
        exact taken.head (by simp [priority, fifo])
    rw [dispatches_append, dispatches_single, List.filterMap_append, ← List.append_assoc, ih, line,
      move.joined]
    cases back : p.requeued <;> simp [back]

/-- A task of least level that is waiting either is chosen by this pass or
moves up by one place for each dispatch of the pass. -/
theorem waits (passed : b.Passed h p h')
    (member : waiting ∈ h.loop.ready.contents)
    (top : b.mlfq = true → (b.risen p.readings h.loop waiting).level = 0) :
    p.dispatched = some waiting ∨
      (waiting ∈ h'.loop.ready.contents ∧
        (b.mlfq = true → (h'.loop.tasks waiting).level = 0) ∧
        h'.loop.ready.contents.idxOf waiting + p.dispatched.toList.length =
          h.loop.ready.contents.idxOf waiting) := by
  have move := moved passed
  have least (other : TaskId) : priority b.mlfq (b.risen p.readings h.loop) waiting ≤
      priority b.mlfq (b.risen p.readings h.loop) other := by
    unfold priority
    cases mlfq : b.mlfq with
    | true => simp [top mlfq]
    | false => simp
  have level (different : waiting ≠ p.task) (on : b.mlfq = true) :
      (h'.loop.tasks waiting).level = 0 := by
    rw [passed.after, (passed.other different).1]
    exact top on
  rcases move.chosen with ⟨none_, held, same⟩ | ⟨some_, idle, taken⟩
  · have different : waiting ≠ p.task := by
      rintro rfl
      exact move.unqueued (same ▸ member)
    refine .inr ⟨?_, level different, ?_⟩
    · rw [move.joined, same]
      exact List.mem_append_left _ member
    · rw [move.joined, same, none_, List.idxOf_append, if_pos member]
      rfl
  · by_cases now : waiting = p.task
    · exact .inl (now ▸ some_)
    · obtain ⟨still, nearer⟩ := taken.advances member (least p.task) now
      refine .inr ⟨?_, level now, ?_⟩
      · rw [move.joined]
        exact List.mem_append_left _ still
      · rw [move.joined, some_, List.idxOf_append, if_pos still]
        exact nearer

/-- Level 0 is the top: a boost can only confirm it. -/
theorem risen_top (top : (s.tasks i).level = 0) : (b.risen r s i).level = 0 := by
  by_cases due : b.BoostDue r s
  · by_cases active : b.Boosted i (s.tasks i)
    · simp [risen, due, lifted, lift, active, Task.refreshed]
    · simp [risen, due, lifted, lift, active, top]
  · simp [risen, due, top]

/-- From a head where a task waits at the top level, every continuation either
has chosen it within its place in the line, or has moved it up by one place
with each dispatch. -/
theorem waits_run (coherent : Coherent b h.loop) (member : waiting ∈ h.loop.ready.contents)
    (top : b.mlfq = true → (h.loop.tasks waiting).level = 0) (run : Run b.Step h later h') :
    waiting ∈ (dispatches later).take (h.loop.ready.contents.idxOf waiting + 1) ∨
      (waiting ∈ h'.loop.ready.contents ∧
        (b.mlfq = true → (h'.loop.tasks waiting).level = 0) ∧
        h'.loop.ready.contents.idxOf waiting + (dispatches later).length =
          h.loop.ready.contents.idxOf waiting) := by
  induction run with
  | nil => exact .inr ⟨member, top, by simp [dispatches]⟩
  | @snoc later m p h' run last ih =>
    rw [dispatches_append, dispatches_single]
    rcases ih with chosen | ⟨still, level, place⟩
    · rw [List.take_append]
      exact .inl (List.mem_append_left _ chosen)
    · have middle := run_coherent coherent run
      rcases waits (step_view middle last) still (fun on => risen_top (level on)) with
        now | ⟨stays, level', place'⟩
      · have room : (dispatches later).length < h.loop.ready.contents.idxOf waiting + 1 := by omega
        refine .inl (List.mem_take_iff_getElem.mpr ⟨(dispatches later).length, ?_, ?_⟩)
        · simp [now]
          omega
        · simp [now]
      · refine .inr ⟨stays, level', ?_⟩
        rw [List.length_append]
        omega

/-- A boost lifts everything that waits to the top level. -/
theorem boost_tops (coherent : Coherent b h.loop) (member : waiting ∈ h.loop.ready.contents)
    (due : b.BoostDue r h.loop) : (b.risen r h.loop waiting).level = 0 := by
  have state := (coherent.queued waiting).mp member
  have active : b.Boosted waiting (h.loop.tasks waiting) := by
    rcases b.task_or_spare waiting with ⟨k, rfl⟩ | spare
    · exact ⟨k.isLt, by rw [state]; simp⟩
    · rw [coherent.spare waiting spare] at state
      cases state
  simp [risen, due, lifted, lift, active, Task.refreshed]

/-- Bounded bypass. Without levels the task at position `n` is exactly the
`n + 1`-st one dispatched. Under MLFQ, once a boost is performed at a head, the
task at position `n` is among the next `n + 1` dispatched, whatever happens in
between; before that many dispatches it is still waiting. -/
theorem bounded_bypass (b : Batch) (reached : b.Reaches passes h) (run : Run b.Step h later h')
    (place : h.loop.ready.contents[n]? = some waiting) :
    (b.policy ≠ .mlfq → n < (dispatches later).length → (dispatches later)[n]? = some waiting) ∧
    (b.policy = .mlfq → ∀ first rest, later = first :: rest → b.BoostDue first.readings h.loop →
      waiting ∈ (dispatches later).take (n + 1) ∨
        (waiting ∈ h'.loop.ready.contents ∧ (dispatches later).length ≤ n)) := by
  have coherent := reaches_coherent reached
  obtain ⟨inside, here⟩ := List.getElem?_eq_some_iff.mp place
  have member : waiting ∈ h.loop.ready.contents := List.mem_of_getElem here
  have index : h.loop.ready.contents.idxOf waiting = n := by
    rw [← here]
    exact coherent.distinct.idxOf_getElem n inside
  constructor
  · intro policy enough
    have conserved := fifo_conserves (by simpa [mlfq] using policy) coherent run
    have left : (h.loop.ready.contents ++ later.filterMap Pass.requeued)[n]? = some waiting := by
      rw [List.getElem?_append_left inside]
      exact place
    rw [conserved, List.getElem?_append_left enough] at left
    exact left
  · rintro policy first rest rfl due
    obtain ⟨m, step, run⟩ := run.uncons
    have split : dispatches (first :: rest) = first.dispatched.toList ++ dispatches rest := by
      rw [← dispatches_single, ← dispatches_append]
      rfl
    rcases waits (step_view coherent step) member (fun _ => boost_tops coherent member due) with
      now | ⟨still, level, nearer⟩
    · exact .inl (by simp [split, now])
    · rw [index] at nearer
      rcases waits_run (step_coherent coherent step) still level run with soon | ⟨stays, -, left⟩
      · refine .inl ?_
        rw [split, List.take_append, ← nearer]
        refine List.mem_append_right _ ?_
        convert soon using 2
        omega
      · refine .inr ⟨stays, ?_⟩
        rw [split, List.length_append]
        omega

end Batch

/-- The second task of the rehearsal waits at position 1. -/
theorem rehearsal_waits (policy : Policy) : ∃ s, (rehearsal policy).start = .ok s ∧
    s.ready.contents[1]? = some ⟨1, by decide⟩ ∧ s.boost = 200000 := by
  have zero : (rehearsal policy).base = 0 := rfl
  have fits : (rehearsal policy).base + 20 * T ≤ usizeMax := by
    rw [zero]
    decide
  obtain ⟨s, started, line, -, -, -, boost, -⟩ := Batch.start_spec fits
  exact ⟨s, started, by rw [line]; rfl, by rw [boost, zero]; decide⟩

theorem bounded_bypass_rehearsal :
    (∃ s passes h, (rehearsal .rr).start = .ok s ∧
      Run (rehearsal .rr).Step ⟨s, 0⟩ passes h ∧ (dispatches passes)[1]? = some ⟨1, by decide⟩) ∧
    ∃ s first rest h, (rehearsal .mlfq).start = .ok s ∧
      Run (rehearsal .mlfq).Step ⟨s, 0⟩ (first :: rest) h ∧
      (⟨1, by decide⟩ ∈ (dispatches (first :: rest)).take 2 ∨
        (⟨1, by decide⟩ ∈ h.loop.ready.contents ∧ (dispatches (first :: rest)).length ≤ 1)) := by
  constructor
  · have plays : ((rehearsal .rr).play (rehearsed 0)).map (fun run => (dispatches run.1).length) = some 2 := by
      decide +kernel
    obtain ⟨⟨passes, h⟩, played, count⟩ := Option.map_eq_some_iff.mp plays
    have enough : 1 < (dispatches passes).length := by
      dsimp only at count
      omega
    obtain ⟨s, started, driven⟩ := Batch.play_drives played
    obtain ⟨s', started', place, -⟩ := rehearsal_waits .rr
    obtain rfl : s = s' := Except.ok.inj (started.symm.trans started')
    have run := Batch.drive_run driven
    exact ⟨s, passes, h, started, run,
      (Batch.bounded_bypass (rehearsal .rr) ⟨s, started, .nil⟩ run place).1 (by decide) enough⟩
  · have plays : ((rehearsal .mlfq).play (rehearsed 200000)).isSome = true := by decide +kernel
    obtain ⟨⟨passes, h⟩, played⟩ := Option.isSome_iff_exists.mp plays
    obtain ⟨s, started, driven⟩ := Batch.play_drives played
    obtain ⟨s', started', place, boost⟩ := rehearsal_waits .mlfq
    obtain rfl : s = s' := Except.ok.inj (started.symm.trans started')
    have run := Batch.drive_run driven
    obtain ⟨i, e, after, rest, -, -, -, -, rfl⟩ := Batch.drive_cons driven
    refine ⟨s, _, rest, h, started, run,
      (Batch.bounded_bypass (rehearsal .mlfq) ⟨s, started, .nil⟩ run place).2 rfl _ _ rfl ⟨rfl, boost.le⟩⟩

namespace Batch
variable {b : Batch} {r : Readings} {s s' e : Loop} {i : TaskId} {h h' : Head} {p : Pass}
  {passes : List Pass}

/-- The line always stands in the order in which the present stays began. -/
theorem reaches_inOrder (reached : b.Reaches passes h) :
    InOrder (b.arrivals passes) h.loop.ready.contents := by
  obtain ⟨s, started, run⟩ := reached
  obtain ⟨s', ran, line, -⟩ := start_spec (start_bounded started)
  rw [started] at ran
  cases ran
  have coherent := start_coherent started
  induction run with
  | nil =>
    have distinct := coherent.distinct
    rw [line] at distinct
    simpa [arrivals, line] using InOrder.fresh distinct
  | @snoc passes m p h' run last ih =>
    have move := moved (step_view (run_coherent coherent run) last)
    have kept : InOrder (b.arrivals passes) p.entry.ready.contents := by
      rcases move.chosen with ⟨-, -, same⟩ | ⟨-, -, taken⟩
      · rw [same]
        exact ih
      · exact taken.pairwise ih
    have grown : b.arrivals (passes ++ [p]) = b.arrivals passes ++ p.requeued.toList := by
      cases back : p.requeued <;> simp [arrivals, back]
    rw [grown, move.joined]
    cases back : p.requeued with
    | none => simpa using kept
    | some i =>
      have same : i = p.task := by
        unfold Pass.requeued at back
        split at back <;> simp_all
      exact kept.join (same ▸ move.unqueued)

/-! ### Strict priority -/

/-- Nobody waits at a better level than the task that holds the processor. -/
def Favoured (s : Loop) : Prop :=
  ∀ i, s.current = some i → ∀ j, (s.tasks j).state = .ready → (s.tasks i).level ≤ (s.tasks j).level

theorem entered_favoured (on : b.mlfq = true) (coherent : Coherent b s) (favoured : Favoured s)
    (entered : b.Entered r s i e) : Favoured e := by
  intro k held j waiting
  obtain rfl : i = k := Option.some.inj (entered.current.symm.trans held)
  have entry := entered_coherent coherent entered
  rcases entered.choice with ⟨held, tasks, -, -⟩ | ⟨idle, taken, tasks, -⟩
  · rw [tasks] at waiting ⊢
    by_cases due : b.BoostDue r s
    · have running := (coherent.running i).mp held
      have active : b.Boosted i (s.tasks i) := by
        rcases b.task_or_spare i with ⟨n, rfl⟩ | spare
        · exact ⟨n.isLt, by rw [running]; simp⟩
        · rw [coherent.spare i spare] at running
          cases running
      simp [risen, due, lifted, lift, active, Task.refreshed]
    · simp only [risen, due, ↓reduceIte] at waiting ⊢
      exact favoured i held j waiting
  · have different : j ≠ i := by
      rintro rfl
      rw [(entry.running j).mp entered.current] at waiting
      cases waiting
    have other : e.tasks j = b.risen r s j := by rw [tasks, Function.update_of_ne different]
    have member : j ∈ s.ready.contents := by
      rw [coherent.queued, ← (b.risen_state r s j).1, ← other]
      exact waiting
    have least := taken.least member
    rw [other, tasks, Function.update_self]
    simpa [priority, on, started] using least

theorem settled_favoured {t : Task} (on : b.mlfq = true) (coherent : Coherent b e)
    (held : e.current = some i) (favoured : Favoured e) (settled : b.Settled r i e t s') :
    Favoured s' := by
  intro k now j waiting
  cases settled.fate with
  | ended how state stamp ready current =>
    rw [current] at now
    cases now
  | requeued state since fresh ready current =>
    rw [current] at now
    cases now
  | kept state since ready current =>
    obtain rfl : i = k := Option.some.inj (held.symm.trans (current ▸ now))
    have running : t.state = .running := state.trans ((coherent.running i).mp held)
    have self : s'.tasks i = t := by rw [settled.tasks, Function.update_self]
    have different : j ≠ i := by
      rintro rfl
      rw [self, running] at waiting
      cases waiting
    have other : s'.tasks j = e.tasks j := by rw [settled.tasks, Function.update_of_ne different]
    have level : t.level = (e.tasks i).level := by
      obtain ⟨slice, allot, paid⟩ := charged_eq b (e.exchange.time - r.entered) (e.tasks i)
      cases settled.budget on with
      | ended how stopped => rw [stopped] at running; cases running
      | demoted low used ready => rw [ready] at running; cases running
      | refilled left low used ready => rw [ready] at running; cases running
      | inside left some_ live level => rw [level, paid]
    rw [self, other, level]
    rw [other] at waiting
    exact favoured i held j waiting

theorem reaches_favoured (on : b.mlfq = true) (reached : b.Reaches passes h) : Favoured h.loop := by
  obtain ⟨s, started, run⟩ := reached
  have coherent := start_coherent started
  induction run with
  | nil =>
    obtain ⟨s', ran, -, -, -, idle, -⟩ := start_spec (start_bounded started)
    rw [started] at ran
    cases ran
    intro i held
    rw [idle] at held
    cases held
  | @snoc passes m p h' run last ih =>
    have middle := run_coherent coherent run
    have passed := step_view middle last
    obtain ⟨t, settled⟩ := passed.settled
    have first := entered_favoured on middle ih passed.entered
    rw [passed.after]
    exact settled_favoured on (trapped_coherent passed.entry p.event) passed.entered.current first settled

/-- Strict priority with first come first served inside a level. Whenever a
task is entered, no Ready task has a smaller level; and when it has just been
dispatched, it is the one whose stay in the queue began first among the Ready
tasks of its level, and the others keep their order. -/
theorem strict_priority (b : Batch) (policy : b.policy = .mlfq) (reached : b.Reaches passes h)
    (entered : b.enter r h.loop = .ok (some (i, e))) :
    (∀ j, (e.tasks j).state = .ready → (e.tasks i).level ≤ (e.tasks j).level) ∧
    (h.loop.current = none →
      i ∈ h.loop.ready.contents ∧ e.ready.contents = h.loop.ready.contents.erase i ∧
      (∀ j, (e.tasks j).state = .ready ↔ j ∈ h.loop.ready.contents ∧ j ≠ i) ∧
      ∀ j, (e.tasks j).state = .ready → (e.tasks j).level = (e.tasks i).level →
        lastJoin (b.arrivals passes) i < lastJoin (b.arrivals passes) j) := by
  have on : b.mlfq = true := by simp [mlfq, policy]
  have coherent := reaches_coherent reached
  have view := enter_view entered
  have entry := entered_coherent coherent view
  refine ⟨entered_favoured on coherent (reaches_favoured on reached) view i view.current, fun idle => ?_⟩
  rcases view.choice with ⟨held, -⟩ | ⟨-, taken, tasks, -⟩
  · rw [idle] at held
    cases held
  · have still (j : TaskId) : j ∈ e.ready.contents ↔ j ∈ h.loop.ready.contents ∧ j ≠ i := by
      rw [taken.mem_iff]
      obtain ⟨gone, -⟩ := taken.nodup coherent.distinct
      constructor
      · exact fun stays => ⟨.inr stays, fun same => gone (same ▸ stays)⟩
      · rintro ⟨stays, different⟩
        exact stays.resolve_left different
    refine ⟨taken.mem, ?_, fun j => (entry.queued j).symm.trans (still j), ?_⟩
    · obtain ⟨front, back, whole, rest, before, -⟩ := taken
      have fresh : i ∉ front := fun member => Nat.lt_irrefl _ (before i member)
      rw [whole, rest, List.erase_append_right _ fresh, List.erase_cons_head]
    · intro j waiting level
      have stays := (entry.queued j).mpr waiting
      have different := ((still j).mp stays).2
      refine taken.earliest (reaches_inOrder reached) stays ?_
      have other : e.tasks j = b.risen r h.loop j := by rw [tasks, Function.update_of_ne different]
      rw [other, tasks, Function.update_self] at level
      simpa [priority, on, started] using level.le

end Batch

/-- Three tasks that trap every `T`: at the fourth trap the first one has used
up its allotment at the highest level. -/
def contested : Batch :=
  { rehearsal .mlfq with
    specs := [Spec.new 1 10, Spec.new 1 10, Spec.new 1 10], nonempty := by simp, fits := by decide }

def contest : List (Readings × Exchange) :=
  (List.range 4).map fun k => (.instant (k * T) ((k + 1) * T), ⟨0, ZERO_FRAME, .timer, (k + 1) * T⟩)

theorem strict_priority_rehearsal : ∃ passes h i e, contested.Reaches passes h ∧ h.loop.current = none ∧
    contested.enter (.instant 40000 50000) h.loop = .ok (some (i, e)) ∧
    ((e.tasks i).level = 0 ∧ ∃ j k, (e.tasks j).state = .ready ∧ (e.tasks j).level = 0 ∧
      (e.tasks k).state = .ready ∧ (e.tasks k).level = 1) ∧
    (∀ j, (e.tasks j).state = .ready → (e.tasks i).level ≤ (e.tasks j).level) ∧
    (i ∈ h.loop.ready.contents ∧ e.ready.contents = h.loop.ready.contents.erase i ∧
      (∀ j, (e.tasks j).state = .ready ↔ j ∈ h.loop.ready.contents ∧ j ≠ i) ∧
      ∀ j, (e.tasks j).state = .ready → (e.tasks j).level = (e.tasks i).level →
        lastJoin (contested.arrivals passes) i < lastJoin (contested.arrivals passes) j) := by
  have plays : ((contested.play contest).bind fun run =>
      (contested.enter (.instant 40000 50000) run.2.loop).toOption.join.map fun entered =>
        (run.2.loop.current, (entered.2.tasks entered.1).level,
          ((entered.2.tasks ⟨2, by decide⟩).state, (entered.2.tasks ⟨2, by decide⟩).level),
          ((entered.2.tasks ⟨0, by decide⟩).state, (entered.2.tasks ⟨0, by decide⟩).level))) =
      some (none, 0, (.ready, 0), (.ready, 1)) := by decide +kernel
  obtain ⟨⟨passes, h⟩, played, rest⟩ := Option.bind_eq_some_iff.mp plays
  obtain ⟨⟨i, e⟩, joined, seen⟩ := Option.map_eq_some_iff.mp rest
  have entered := Batch.toOption_some.mp (Option.join_eq_some_iff.mp joined)
  simp only [Prod.mk.injEq] at seen
  obtain ⟨idle, best, ⟨second, high⟩, first, low⟩ := seen
  have reached := Batch.play_reaches played
  have priority := Batch.strict_priority contested rfl reached entered
  exact ⟨passes, h, i, e, reached, idle, entered, ⟨best, _, _, second, high, first, low⟩, priority.1,
    priority.2 idle⟩

end Neonos.Scheduler
