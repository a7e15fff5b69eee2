import Neonos.IdealClock
import Neonos.MlfqTurn
import Neonos.ReportCounters

/-! A pass of the kernel's MLFQ loop in the ideal environment is a whole turn of
`experiments/mlfq.py`: both choose the same job out of the same queue, and the
armed deadline is where the simulator finds slice, allotment or boost period
used up. -/
namespace Neonos.Scheduler
open StableChoice WhileLoop Runs

/-- The budget of a task in platform ticks and in ticks of the simulator. -/
structure SameBudget (t : Task) (e : Mlfq.Entry) : Prop where
  slice : (t.slice : Int) = half * e.slice
  some_ : 0 < e.slice
  short : e.slice ≤ 8
  allot : e.level ≠ 2 → (t.allot : Int) = half * e.allot ∧ 0 < e.allot
  bottom : e.level = 2 → t.allot = usizeMax

/-- One job on both sides. -/
structure SameTask (t : Task) (e : Mlfq.Entry) (demotions : Nat) : Prop where
  level : t.level = e.level.val
  budget : e.phase ≠ .done → SameBudget t e
  since : e.phase ≠ .done → t.readySince = half * e.readyAt
  first : t.first = e.first.map (half * ·)
  done : ∀ d, e.done = some d → t.completion = half * d
  maxWait : t.maxWait = half * e.maxWait
  demotions : t.demotions = demotions

/-- The scheduling state of kernel and simulator at one time. -/
structure Matches (b : Batch) (clock : Nat) (l : Loop) (s : Mlfq.State b.specs.length) : Prop where
  clock : clock = half * s.now
  queue : l.ready.contents = s.ready.map b.task
  boost : l.boost = half * s.nextBoost
  tasks : ∀ i, SameTask (l.tasks (b.task i)) (s.entries i) ((s.events.filterMap demoted).count i)

variable {b : Batch} {w : Mlfq.Workload b.specs.length} {clock : Nat} {l e : Loop}
  {s : Mlfq.State b.specs.length} {i : Fin b.specs.length} {r : Readings}

theorem half_period : 20 * T = half * 40 := by decide

theorem half_pos : 0 < half := by decide

/-! ### Budgets -/

/-- A fresh budget is the same on both sides. -/
theorem SameBudget.fresh {t : Task} {e : Mlfq.Entry} (slice : t.slice = fullSlice e.level.val)
    (allot : t.allot = fullAllot e.level.val) (sliced : e.slice = Mlfq.slices e.level)
    (allotted : e.allot = Mlfq.allots e.level) : SameBudget t e := by
  have tables (level : Fin 3) : (fullSlice level.val : Int) = half * Mlfq.slices level ∧
      0 < Mlfq.slices level ∧ Mlfq.slices level ≤ 8 ∧
      (level ≠ 2 → (fullAllot level.val : Int) = half * Mlfq.allots level ∧ 0 < Mlfq.allots level) ∧
      (level = 2 → fullAllot level.val = usizeMax) := by
    revert level
    decide
  obtain ⟨same, some_, short, above, bottom⟩ := tables e.level
  exact ⟨by rw [slice, sliced, same], sliced ▸ some_, sliced ▸ short, by rw [allot, allotted]; exact above,
    by rw [allot]; exact bottom⟩

theorem below_two (level : Fin 3) : level.val < 2 ↔ level ≠ 2 := by
  revert level
  decide

/-- An allotment that is not used up stays the same on both sides. -/
theorem SameBudget.allotment {paid : Task} {e : Mlfq.Entry} {k : Nat} (same : SameBudget paid e)
    (level : paid.level = e.level.val) (bound : e.level ≠ 2 → (k : Int) ≤ e.allot)
    (stays : ¬ (paid.level < 2 ∧ (if paid.level < 2 then paid.allot - half * k else paid.allot) = 0)) :
    ¬ (e.spent k).Demotes .mlfq ∧
      (e.level ≠ 2 → ((if paid.level < 2 then paid.allot - half * k else paid.allot : Nat) : Int) =
        half * (e.spent k).allot ∧ 0 < (e.spent k).allot) ∧
      (e.level = 2 → (if paid.level < 2 then paid.allot - half * k else paid.allot) = usizeMax) := by
  have tick : half = 5000 := rfl
  have below := below_two e.level
  by_cases above : e.level ≠ 2
  · have low : paid.level < 2 := level ▸ below.mpr above
    have allotted := (same.allot above).1
    have near := bound above
    have spent : (e.spent k).allot = e.allot - k := if_pos above
    rw [if_pos low] at stays ⊢
    rw [tick] at allotted stays ⊢
    have some_ : 0 < e.allot - k := by omega
    refine ⟨fun demotes => ?_, fun _ => ⟨by rw [spent]; omega, spent ▸ some_⟩, fun bottom => absurd bottom above⟩
    have none_ := demotes.2.2.2
    rw [spent] at none_
    omega
  · have high : ¬ paid.level < 2 := fun low => above (below.mp (level ▸ low))
    rw [if_neg high]
    refine ⟨fun demotes => ?_, fun low => absurd low above, same.bottom⟩
    exact above (below.mp demotes.2.2.1)

/-- The budget rules of both sides, for a task that goes on after `k` ticks. -/
theorem SameBudget.renewed {t paid : Task} {e : Mlfq.Entry} {k : Nat} {i : TaskId} (same : SameBudget paid e)
    (level : paid.level = e.level.val) (slice : (k : Int) ≤ e.slice)
    (allot : e.level ≠ 2 → (k : Int) ≤ e.allot) (left : (e.spent k).left ≠ 0)
    (goes : t.state ≠ .done)
    (budget : b.Budgeted i l { paid with
      slice := paid.slice - half * k
      allot := if paid.level < 2 then paid.allot - half * k else paid.allot } t) :
    SameBudget t ((e.spent k).renew .mlfq) ∧ t.level = ((e.spent k).renew .mlfq).level.val ∧
      t.demotions = paid.demotions + if (e.spent k).Demotes .mlfq then 1 else 0 := by
  have tick : half = 5000 := rfl
  have sliced := same.slice
  have short := same.short
  have spentSlice : (e.spent k).slice = e.slice - k := rfl
  rw [tick] at sliced
  unfold Mlfq.Entry.renew
  cases budget with
  | ended _ state => exact absurd state goes
  | demoted low used _ level' slice' allot' demotions =>
    dsimp only at low used level' slice' allot' demotions
    have above : e.level ≠ 2 := (below_two e.level).mp (level ▸ low)
    have allotted := (same.allot above).1
    have bound := allot above
    rw [if_pos low] at used
    rw [tick] at allotted used
    have spentAllot : (e.spent k).allot = e.allot - k := if_pos above
    have due : (e.spent k).Demotes .mlfq := by
      refine ⟨left, rfl, Fin.lt_def.mpr (level ▸ low), ?_⟩
      rw [spentAllot]
      omega
    have next : (e.level + 1).val = paid.level + 1 := by
      rw [level]
      have small : e.level.val < 2 := level ▸ low
      omega
    rw [if_pos due, if_pos due]
    refine ⟨.fresh ?_ ?_ rfl rfl, level'.trans next.symm, demotions⟩
    · rw [slice', ← next]
      rfl
    · rw [allot', ← next]
      rfl
  | refilled stays _ used _ level' slice' allot' demotions =>
    dsimp only at stays used level' slice' allot' demotions
    obtain ⟨calm, kept, bottom⟩ := same.allotment level allot stays
    rw [tick] at used
    have empty : (e.spent k).slice = 0 := by
      rw [spentSlice]
      omega
    rw [if_neg calm, if_neg calm, if_pos empty, if_pos rfl]
    have full : SameBudget { paid with slice := fullSlice paid.level, allot := fullAllot paid.level }
        { e with slice := Mlfq.slices e.level, allot := Mlfq.allots e.level } :=
      .fresh (congrArg fullSlice level) (congrArg fullAllot level) rfl rfl
    refine ⟨⟨?_, full.some_, full.short, ?_, ?_⟩, level'.trans level, demotions⟩
    · rw [slice']
      exact full.slice
    · rw [allot']
      exact kept
    · rw [allot']
      exact bottom
  | inside stays more _ level' slice' allot' demotions =>
    dsimp only at stays more level' slice' allot' demotions
    obtain ⟨calm, kept, bottom⟩ := same.allotment level allot stays
    rw [tick] at more
    have some_ : (e.spent k).slice ≠ 0 := by
      rw [spentSlice]
      omega
    rw [if_neg calm, if_neg calm, if_neg some_]
    refine ⟨⟨?_, ?_, ?_, ?_, ?_⟩, level'.trans level, demotions⟩
    · rw [slice', spentSlice, tick]
      omega
    · rw [spentSlice]
      omega
    · rw [spentSlice]
      omega
    · rw [allot']
      exact kept
    · rw [allot']
      exact bottom

/-! ### The boost -/

theorem Matches.due (same : Matches b clock l s) (on : b.mlfq = true) (head : r.head = clock) :
    b.BoostDue r l ↔ s.nextBoost ≤ s.now := by
  unfold Batch.BoostDue
  rw [same.boost, head, same.clock]
  simp only [on, true_and]
  exact Nat.mul_le_mul_left_iff half_pos

theorem Matches.nextBoost (same : Matches b clock l s) (base : b.base = 0)
    (room : b.base + b.periods clock ≤ usizeMax) : b.nextBoost clock = half * ((s.now / 40 + 1) * 40) := by
  rw [Batch.nextBoost_eq room]
  unfold Batch.periods wrappingSub
  rw [base, if_pos (Nat.zero_le clock), Nat.zero_add, Nat.sub_zero, same.clock, half_period,
    Nat.mul_div_mul_left _ _ half_pos]
  ring

/-- The boost of both sides. -/
theorem Matches.raise (same : Matches b clock l s) (on : b.mlfq = true) (base : b.base = 0)
    (head : r.head = clock) (boosted : r.boosted = clock)
    (room : b.BoostDue r l → b.base + b.periods clock ≤ usizeMax)
    (alive : ∀ i, (l.tasks (b.task i)).state ≠ .done ↔ (s.entries i).done = none) :
    Matches b clock { l with
      tasks := b.risen r l
      boost := if b.BoostDue r l then b.nextBoost r.boosted else l.boost } (s.boost .mlfq 40) := by
  have due := same.due on head
  unfold Mlfq.State.boost
  by_cases late : s.nextBoost ≤ s.now
  · have raises : Mlfq.Policy.mlfq = .mlfq ∧ s.nextBoost ≤ s.now := ⟨rfl, late⟩
    rw [if_pos (due.mpr late), if_pos raises, boosted]
    refine ⟨same.clock, same.queue, same.nextBoost base (room (due.mpr late)), fun i => ?_⟩
    have task := same.tasks i
    have count : ((s.events ++ [Mlfq.Event.boost s.now]).filterMap demoted).count i =
        (s.events.filterMap demoted).count i := by
      rw [List.filterMap_append, List.count_append]
      rfl
    dsimp only
    rw [count]
    unfold Batch.risen Batch.lifted Batch.lift
    rw [if_pos (due.mpr late)]
    by_cases unended : (s.entries i).done = none
    · have active : b.Boosted (b.task i) (l.tasks (b.task i)) := ⟨i.isLt, (alive i).mpr unended⟩
      rw [if_pos active, if_pos unended]
      exact ⟨rfl, fun _ => .fresh rfl rfl rfl rfl, task.since, task.first, task.done, task.maxWait,
        task.demotions⟩
    · have idle : ¬ b.Boosted (b.task i) (l.tasks (b.task i)) := fun active => unended ((alive i).mp active.2)
      rw [if_neg idle, if_neg unended]
      exact task
  · have early : ¬ b.BoostDue r l := mt due.mp late
    have calm : ¬ (Mlfq.Policy.mlfq = .mlfq ∧ s.nextBoost ≤ s.now) := fun both => late both.2
    rw [if_neg early, if_neg calm]
    unfold Batch.risen
    rw [if_neg early]
    exact ⟨same.clock, same.queue, same.boost, same.tasks⟩

/-! ### The choice -/

/-- Both sides choose the same job out of the same queue. -/
theorem Matches.chooses (same : Matches b clock l s) (on : b.mlfq = true)
    (taken : Takes (priority b.mlfq l.tasks) l.ready.contents j rest) :
    ∃ i, j = b.task i ∧ s.choose .mlfq = some i ∧ rest = (s.ready.erase i).map b.task ∧
      Takes (fun i => (s.entries i).level) s.ready i (s.ready.erase i) := by
  have some_ : s.choose .mlfq ≠ none := by
    intro nobody
    have member := taken.mem
    rw [same.queue, Mlfq.choose_none .mlfq nobody] at member
    cases member
  obtain ⟨i, chosen⟩ := Option.ne_none_iff_exists'.mp some_
  have own : Takes (fun i => (s.entries i).level) s.ready i (s.ready.erase i) := least_takes chosen
  have mapped : Takes (priority b.mlfq l.tasks) (s.ready.map b.task) (b.task i) ((s.ready.erase i).map b.task) := by
    refine own.map fun a c => ?_
    simp only [priority, on, ↓reduceIte, (same.tasks a).level, (same.tasks c).level]
    exact Fin.lt_def.symm
  rw [← same.queue] at mapped
  obtain ⟨rfl, rfl⟩ := taken.once mapped
  exact ⟨i, rfl, chosen, rfl, own⟩

/-- The dispatch of both sides. -/
theorem Matches.dispatch (same : Matches b clock l s) (dispatched : r.dispatched = clock) (free : s.current = none)
    (chosen : s.choose .mlfq = some i) (waits : (s.entries i).phase = .ready)
    (tasks : e.tasks = Function.update l.tasks (b.task i) (Batch.started r (l.tasks (b.task i))))
    (queue : e.ready.contents = (s.ready.erase i).map b.task) (boost : e.boost = l.boost) :
    Matches b clock e (s.dispatch .mlfq) := by
  rw [Mlfq.dispatch_chosen free chosen]
  refine ⟨same.clock, queue, boost.trans same.boost, fun j => ?_⟩
  have task := same.tasks j
  dsimp only
  rw [tasks]
  by_cases own : j = i
  · subst own
    rw [Function.update_self, Function.update_self]
    have live : (s.entries j).phase ≠ .done := by simp [waits]
    obtain ⟨slice, some_, short, allot, bottom⟩ := task.budget live
    refine ⟨task.level, fun _ => ⟨slice, some_, short, allot, bottom⟩, fun _ => task.since live, ?_, task.done, ?_,
      task.demotions⟩
    · simp only [Batch.started, Mlfq.Entry.taken, task.first, dispatched, same.clock]
      cases (s.entries j).first <;> rfl
    · simp only [Batch.started, Mlfq.Entry.taken, task.maxWait, task.since live, dispatched, same.clock]
      rw [← Nat.mul_sub, Nat.mul_max_mul_left]
  · rw [Function.update_of_ne own, Function.update_of_ne fun same => own (b.task_injective same)]
    exact task

/-- A boost deadline on the grid that fits a `usize` is at most the last one. -/
theorem Matches.boost_le (same : Matches b clock l s) (grid : 40 ∣ s.nextBoost) (bounded : l.boost ≤ usizeMax) :
    l.boost ≤ Batch.lastBoost := by
  obtain ⟨k, grid⟩ := grid
  have whole : 20 * T ∣ l.boost := by
    rw [same.boost, grid, half_period, ← Nat.mul_assoc]
    exact Nat.dvd_mul_right ..
  exact Batch.le_lastBoost whole bounded

/-! ### The two halves of a pass -/

/-- The passes behind a loop head, against the dispatches and boosts of the simulator. -/
structure Behind (b : Batch) (passes : List Pass) (h : Head) (s : Mlfq.State b.specs.length) : Prop where
  reached : b.Reaches passes h
  switches : (dispatches passes).length = s.switches
  boosts : 40 * (passes.countP b.Boosts + 1) ≤ s.nextBoost

/-- Kernel and simulator between two turns. -/
structure Meets (b : Batch) (w : Mlfq.Workload b.specs.length) (x : Bench b.specs.length)
    (s : Mlfq.State b.specs.length) : Prop where
  same : Matches b x.head.clock x.head.loop s
  coherent : Coherent b x.head.loop
  idle : x.head.loop.current = none
  bounded : x.head.loop.boost ≤ usizeMax
  account : Mlfq.AtHead w s
  free : s.current = none
  awake : Mlfq.Awake s
  grid : 40 ∣ s.nextBoost
  used : ∀ i, x.used i = half * (s.entries i).used
  busy : s.trace.length = s.now
  near : s.now ≤ s.nextBoost
  paced : s.now ≤ 8 * s.switches
  behind : ∃ passes, Behind b passes x.head s

/-- Kernel and simulator with job `i` on the processor. -/
structure Underway (b : Batch) (w : Mlfq.Workload b.specs.length) (x : Bench b.specs.length) (e : Loop)
    (s : Mlfq.State b.specs.length) (i : Fin b.specs.length) : Prop where
  same : Matches b x.head.clock e s
  account : Mlfq.AtHead w s
  current : s.current = some i
  awake : Mlfq.Awake s
  foremost : Mlfq.Foremost s i
  ahead : s.now < s.nextBoost
  grid : 40 ∣ s.nextBoost
  used : ∀ i, x.used i = half * (s.entries i).used
  busy : s.trace.length = s.now

variable {x y : Bench b.specs.length} {passes : List Pass} {p : Pass}

/-- A job is done on both sides or on neither. -/
theorem Meets.alive (meets : Meets b w x s) (i : Fin b.specs.length) :
    (x.head.loop.tasks (b.task i)).state ≠ .done ↔ (s.entries i).done = none := by
  have queued : (x.head.loop.tasks (b.task i)).state = .ready ↔ (s.entries i).phase = .ready := by
    rw [← meets.coherent.queued, meets.same.queue, ← meets.account.ready, List.mem_map_of_injective b.task_injective]
  have stands : (x.head.loop.tasks (b.task i)).state ≠ .running := by
    rw [Ne, ← meets.coherent.running, meets.idle]
    simp
  have halts : (s.entries i).phase ≠ .running := fun running =>
    absurd (meets.free.symm.trans (meets.account.running i running)) (by simp)
  have awake := meets.awake i
  unfold Mlfq.Entry.Sleeps at awake
  rw [(meets.account.fits i).unended]
  cases phase : (s.entries i).phase with
  | new | blocked => simp [phase] at awake
  | running => exact absurd phase halts
  | ready => simp [queued.mpr phase]
  | done =>
    have out : (x.head.loop.tasks (b.task i)).state ≠ .ready := by
      rw [Ne, queued, phase]
      simp
    cases state : (x.head.loop.tasks (b.task i)).state with
    | ready => exact absurd state out
    | running => exact absurd state stands
    | done => simp

theorem Meets.scan (meets : Meets b w x s) : s.scan = s :=
  Mlfq.scan_settled fun i sleeps => absurd sleeps (meets.awake i)

/-- The next boost deadline fits, and the clock is not past it. -/
theorem Meets.clock_le (meets : Meets b w x s) : x.head.clock ≤ Batch.lastBoost := by
  have before : x.head.clock ≤ x.head.loop.boost := by
    rw [meets.same.boost, meets.same.clock]
    exact Nat.mul_le_mul_left half meets.near
  exact before.trans (meets.same.boost_le meets.grid meets.bounded)

/-- The task that a pass enters has come from the queue. -/
theorem Meets.taken {j : TaskId} (meets : Meets b w x s) (entered : b.Entered r x.head.loop j e) :
    x.head.loop.ready.contents ≠ [] := by
  rcases entered.choice with ⟨held, -⟩ | ⟨-, taken, -⟩
  · rw [meets.idle] at held
    cases held
  · exact List.ne_nil_of_mem taken.mem

/-- A build that checks has counted the dispatches. -/
theorem Meets.few (meets : Meets b w x s) (checks : b.profile = .dev) : s.switches < 2 ^ 31 := by
  obtain ⟨passes, behind⟩ := meets.behind
  rw [← behind.switches]
  exact (Batch.reaches_tallied behind.reached).switches.checked checks

/-- The times of a boost are no reason to panic. -/
theorem Meets.raisable (meets : Meets b w x s) (base : b.base = 0) : b.Raisable x.head.clock := by
  have tick : half = 5000 := rfl
  have quantum : T = 10000 := rfl
  have top : usizeMax = 18446744073709551615 := rfl
  have clock := meets.same.clock
  have paced := meets.paced
  refine ⟨fun checks => ⟨base.trans_le (Nat.zero_le _), ?_⟩, ?_⟩
  · have few := meets.few checks
    have near := Batch.periods_le (base.trans_le (Nat.zero_le x.head.clock))
    rw [quantum] at near
    rw [tick] at clock
    omega
  · have wraps := Nat.mod_lt (b.periods x.head.clock) (show 0 < 2 ^ 64 by decide)
    unfold Batch.nextBoost
    omega

/-- Of the counters that open a pass the switches are the first to run full. -/
theorem Meets.overflows (meets : Meets b w x s) (head : r.head = x.head.clock) (full : b.Overflows r x.head.loop) :
    b.profile = .dev ∧ x.head.loop.ready.contents ≠ [] ∧ s.switches + 1 = 2 ^ 31 := by
  obtain ⟨passes, behind⟩ := meets.behind
  have tallied := Batch.reaches_tallied behind.reached
  rcases full with ⟨due, full⟩ | ⟨-, some_, full⟩
  · obtain ⟨checks, many⟩ := tallied.boosts.full full
    have few := meets.few checks
    have late := (meets.same.due due.1 head).mp due
    have boosts := behind.boosts
    have paced := meets.paced
    omega
  · obtain ⟨checks, many⟩ := tallied.switches.full full
    rw [behind.switches] at many
    exact ⟨checks, some_, many⟩

/-- There is always room to drop one more event. -/
theorem Meets.drops (meets : Meets b w x s) (policy : b.policy = .mlfq) : b.profile.Fits x.head.loop.dropped := by
  obtain ⟨passes, behind⟩ := meets.behind
  have tallied := Batch.reaches_tallied behind.reached
  have events := tallied.switched fun limit other => by simp [policy] at other
  rw [meets.idle, behind.switches] at events
  refine tallied.dropped.fits fun checks => ?_
  have few := meets.few checks
  simp only [Option.toList_none, List.length_nil] at events
  omega

/-- A task that waits has service left. -/
theorem Meets.waits (meets : Meets b w x s) (some_ : x.head.loop.ready.contents ≠ []) :
    s.ready ≠ [] ∧ s.Going ∧ s.now < ∑ i, w.service i := by
  rw [meets.same.queue] at some_
  have waiting : s.ready ≠ [] := fun empty => some_ (by rw [empty]; rfl)
  obtain ⟨i, member⟩ := List.exists_mem_of_ne_nil _ waiting
  have phase := (meets.account.ready i).mp member
  have fits := meets.account.fits i
  have left := fits.more (by simp [phase]) (by simp [phase])
  have within := meets.account.within i
  rw [meets.busy] at within
  exact ⟨waiting, ⟨i, fits.unended.mpr (by simp [phase])⟩, by omega⟩

/-- From the loop head to the entry of the task that both sides choose. A build
that does not check has to be before the last boost deadline. -/
theorem Meets.enters (meets : Meets b w x s) (policy : b.policy = .mlfq) (base : b.base = 0)
    (room : b.profile = .release → x.head.clock < Batch.lastBoost)
    (entered : b.enter (.instant x.head.clock trap) x.head.loop = .ok (some (j, e))) :
    ∃ i, j = b.task i ∧ Underway b w x e (s.poised .mlfq 40) i := by
  have on : b.mlfq = true := by simp [Batch.mlfq, policy]
  have view := Batch.enter_view entered
  obtain ⟨ready, -, now, current, -, entries⟩ := Mlfq.boost_other s .mlfq 40
  have fits (due : b.BoostDue (.instant x.head.clock trap) x.head.loop) :
      b.base + b.periods x.head.clock ≤ usizeMax := by
    cases profile : b.profile with
    | dev => simpa only [Readings.instant] using Batch.enter_room entered profile due
    | release => exact Batch.periods_room base (room profile)
  have raised := meets.same.raise (r := .instant x.head.clock trap) on base rfl rfl fits meets.alive
  rcases view.choice with ⟨held, -⟩ | ⟨-, taken, tasks, -⟩
  · rw [meets.idle] at held
    cases held
  obtain ⟨i, rfl, chosen, rest, -⟩ := raised.chooses on taken
  have free : (s.boost .mlfq 40).current = none := current.trans meets.free
  have waits : ((s.boost .mlfq 40).entries i).phase = .ready := by
    have member := Mlfq.choose_mem chosen
    rw [ready, meets.account.ready] at member
    obtain ⟨level, slice, allot, same⟩ := entries i
    rw [same]
    exact member
  have together := raised.dispatch rfl free chosen waits tasks rest view.boost
  have shape := meets.awake.poised_eq .mlfq 40
  obtain ⟨clock, trace⟩ := Mlfq.poised_now s .mlfq 40
  have next := (Mlfq.poised_clock s .mlfq 40).2
  rw [meets.scan] at next
  refine ⟨i, rfl, by rw [shape]; exact together, (meets.account.poised .mlfq 40).1, ?_,
    meets.awake.poised .mlfq 40, ?_, ?_, ?_, fun i => ?_, ?_⟩
  · rw [shape, Mlfq.dispatch_chosen free chosen]
  · rw [shape]
    exact Mlfq.chosen_foremost free chosen
  · rw [clock, next]
    exact Mlfq.boost_ahead s (by decide)
  · rw [next]
    unfold Mlfq.State.boost
    split
    · exact Dvd.intro_left _ rfl
    · exact meets.grid
  · rw [meets.used, meets.account.poised_used]
  · rw [trace, clock, meets.busy]

/-! ### The trap -/

/-- What the kernel arms is what the simulator leaves of slice, allotment and
boost period. -/
theorem Underway.limit (under : Underway b w x e s i) (level : ¬ (s.entries i).phase = .done)
    (r : Readings) (now : r.untilBoost = x.head.clock) :
    ∃ k, Batch.available r e (e.tasks (b.task i)) = half * k ∧ 0 < k ∧
      (k : Int) ≤ (s.entries i).slice ∧ ((s.entries i).level ≠ 2 → (k : Int) ≤ (s.entries i).allot) ∧
      s.now + k ≤ s.nextBoost ∧
      ((k : Int) = (s.entries i).slice ∨ ((s.entries i).level ≠ 2 ∧ (k : Int) = (s.entries i).allot) ∨
        s.now + k = s.nextBoost) := by
  obtain ⟨slice, some_, short, allot, bottom⟩ := (under.same.tasks i).budget level
  have clock := under.same.clock
  have boost := under.same.boost
  have ahead := under.ahead
  have tick : half = 5000 := rfl
  have top : 40000 ≤ usizeMax := by decide
  unfold Batch.available
  rw [now]
  rw [tick] at slice allot clock boost ⊢
  by_cases above : (s.entries i).level = 2
  · have open_ := bottom above
    refine ⟨min (s.entries i).slice.toNat (s.nextBoost - s.now), ?_, ?_, ?_, fun low => absurd above low, ?_, ?_⟩
    · omega
    · omega
    · omega
    · omega
    · omega
  · obtain ⟨allotted, left⟩ := allot above
    refine ⟨min (min (s.entries i).slice.toNat (s.entries i).allot.toNat) (s.nextBoost - s.now), ?_, ?_, ?_,
      fun _ => ?_, ?_, ?_⟩
    · omega
    · omega
    · omega
    · omega
    · omega
    · simp only [above, ne_eq, not_false_eq_true, true_and]
      omega

/-- The trap of the ideal environment comes when the turn of the simulator is over. -/
theorem Underway.lasts (under : Underway b w x e s i) (r : Readings) (now : r.untilBoost = x.head.clock)
    (traps : Traps w i (x.used i) x.head.clock (x.head.clock + Batch.available r e (e.tasks (b.task i))) event) :
    ∃ k, Mlfq.Lasts w s i k ∧ event.time = x.head.clock + half * k ∧ s.now + k ≤ s.nextBoost ∧
      k ≤ (s.entries i).left ∧ (k : Int) ≤ (s.entries i).slice ∧ ((s.entries i).level ≠ 2 → (k : Int) ≤ (s.entries i).allot) ∧
      ((k = (s.entries i).left ∧ event.reason = .exit 0) ∨
        (k ≠ (s.entries i).left ∧ (event.reason = .yield ∨ event.reason = .timer))) := by
  have running := under.account.steady i under.current
  have fits := under.account.fits i
  have more := fits.more (by simp [running]) (by simp [running])
  obtain ⟨limit, armed, some_, slice, allot, boost, ends⟩ := under.limit (by simp [running]) r now
  rw [armed, under.used] at traps
  have whole : half * w.service i - half * (s.entries i).used = half * (s.entries i).left := by
    rw [← fits.left, Nat.mul_add, Nat.add_sub_cancel]
  have multiple : half * w.burst i - half * (s.entries i).used % (half * w.burst i) =
      half * (w.burst i - (s.entries i).used % w.burst i) := by
    rw [Nat.mul_mod_mul_left, Nat.mul_sub]
  obtain ⟨due, earliest, exits⟩ := traps
  have toEnd := earliest _ _ .finish
  have toDeadline := earliest _ _ .timer
  have toYield (bursts : w.burst i ≠ 0) := earliest _ _ (.yields bursts)
  have wins (last : event.time = x.head.clock + half * (s.entries i).left) : event.reason = .exit 0 := by
    apply exits
    rw [last, ← whole]
    exact .finish
  have closer {a c : Nat} : x.head.clock + half * a ≤ x.head.clock + half * c ↔ a ≤ c := by
    rw [Nat.add_le_add_iff_left]
    exact Nat.mul_le_mul_left_iff half_pos
  rw [whole] at toEnd
  rw [multiple] at toYield
  generalize same : event.reason = reason at due wins
  generalize sharp : event.time = time at due wins toEnd toDeadline toYield
  cases due with
  | finish =>
    rw [whole] at toDeadline toYield ⊢
    rw [closer] at toDeadline
    have bound : ((s.entries i).left : Int) ≤ limit := by exact_mod_cast toDeadline
    refine ⟨(s.entries i).left, .first (Nat.pos_of_ne_zero more) le_rfl (fun bursts => closer.mp (toYield bursts))
      (bound.trans slice) (fun above => bound.trans (allot above)) (by omega) (.inl rfl), rfl, by omega, le_rfl,
      bound.trans slice, fun above => bound.trans (allot above), .inl ⟨rfl, rfl⟩⟩
  | yields bursts =>
    rw [multiple] at toDeadline toEnd wins ⊢
    rw [closer] at toDeadline toEnd
    have inside := Nat.mod_lt (s.entries i).used (Nat.pos_of_ne_zero bursts)
    have apart : w.burst i - (s.entries i).used % w.burst i ≠ (s.entries i).left := by
      intro last
      rw [last] at wins
      cases wins rfl
    have bound : ((w.burst i - (s.entries i).used % w.burst i : Nat) : Int) ≤ limit := by
      exact_mod_cast toDeadline
    refine ⟨w.burst i - (s.entries i).used % w.burst i, .first (by omega) toEnd (fun _ => le_rfl)
      (bound.trans slice) (fun above => bound.trans (allot above)) (by omega) (.inr (.inl ⟨bursts, rfl⟩)), rfl,
      by omega, toEnd, bound.trans slice, fun above => bound.trans (allot above), .inr ⟨apart, .inl rfl⟩⟩
  | timer =>
    rw [closer] at toEnd
    have apart : limit ≠ (s.entries i).left := by
      intro last
      rw [last] at wins
      cases wins rfl
    refine ⟨limit, .first some_ toEnd (fun bursts => closer.mp (toYield bursts)) slice allot boost
      (.inr (.inr ends)), rfl, boost, toEnd, slice, allot, .inr ⟨apart, .inr rfl⟩⟩

/-! ### From the trap to the next loop head -/

/-- The task that exits. -/
theorem SameTask.ends {t paid t' : Task} {e : Mlfq.Entry} {k now : Nat} {j : TaskId} (task : SameTask t e times)
    (budget : b.Budgeted j l paid t') (level : paid.level = t.level) (paidDemotions : paid.demotions = t.demotions)
    (state : t'.state = .done) (first : t'.first = t.first) (maxWait : t'.maxWait = t.maxWait)
    (stamp : t'.completion = half * now) (finished : (e.spent k).left = 0) :
    SameTask t' ((e.spent k).stopped now) (times + if (e.spent k).Demotes .mlfq then 1 else 0) := by
  have calm : ¬ (e.spent k).Demotes .mlfq := fun demotes => demotes.1 finished
  obtain ⟨_, _, _, renewed, same⟩ := Mlfq.renew_other .mlfq (e.spent k)
  unfold Mlfq.Entry.stopped
  rw [if_pos finished, if_neg calm, renewed, same calm]
  cases budget with
  | demoted _ _ other | refilled _ _ _ other =>
    rw [state] at other
    cases other
  | inside _ _ live => exact absurd state live
  | ended _ _ level' _ _ demotions' =>
    refine ⟨?_, fun live => absurd rfl live, fun live => absurd rfl live, first.trans task.first, ?_,
      maxWait.trans task.maxWait, ?_⟩
    · exact level'.trans (level.trans task.level)
    · rintro d ⟨⟩
      exact stamp
    · exact demotions'.trans (paidDemotions.trans task.demotions)

/-- The task that goes back to the queue. -/
theorem SameTask.returns {t t' : Task} {e : Mlfq.Entry} {k now : Nat} {j : TaskId} (task : SameTask t e times)
    (live : e.phase ≠ .done) (unended : e.done = none) (slice : (k : Int) ≤ e.slice)
    (allot : e.level ≠ 2 → (k : Int) ≤ e.allot)
    (budget : b.Budgeted j l { t with
      slice := t.slice - half * k
      allot := if t.level < 2 then t.allot - half * k else t.allot } t')
    (state : t'.state = .ready) (first : t'.first = t.first) (maxWait : t'.maxWait = t.maxWait)
    (since : t'.readySince = half * now) (more : (e.spent k).left ≠ 0) :
    SameTask t' ((e.spent k).stopped now) (times + if (e.spent k).Demotes .mlfq then 1 else 0) := by
  obtain ⟨own, level, demotions'⟩ := (task.budget live).renewed task.level slice allot more (by simp [state]) budget
  obtain ⟨_, _, _, renewed, -⟩ := Mlfq.renew_other .mlfq (e.spent k)
  unfold Mlfq.Entry.stopped
  rw [if_neg more]
  rw [renewed] at own level ⊢
  obtain ⟨sliced, some_, short, allotted, bottom⟩ := own
  refine ⟨level, fun _ => ⟨sliced, some_, short, allotted, bottom⟩, fun _ => since, first.trans task.first, ?_,
    maxWait.trans task.maxWait, ?_⟩
  · intro d ended
    cases unended.symm.trans ended
  · exact demotions'.trans (by rw [task.demotions])

theorem count_demote (events : List (Mlfq.Event (Fin n))) (due : Prop) [Decidable due] (time : Nat) (i j : Fin n) :
    ((events ++ if due then [Mlfq.Event.demote time i] else []).filterMap demoted).count j =
      (events.filterMap demoted).count j + if j = i then if due then 1 else 0 else 0 := by
  rw [List.filterMap_append, List.count_append]
  congr 1
  by_cases now : due
  · rw [if_pos now, if_pos now]
    change [i].count j = _
    by_cases own : j = i
    · rw [own, if_pos rfl, List.count_singleton_self]
    · rw [if_neg own, List.count_eq_zero, List.mem_singleton]
      exact own
  · rw [if_neg now, if_neg now, ite_self]
    rfl

/-- From the trap to the next loop head, against the end of the turn. -/
theorem Underway.settles (under : Underway b w x e s i) (policy : b.policy = .mlfq)
    (runs : (e.tasks (b.task i)).state = .running)
    (settled : b.Settled r (b.task i) (e.trapped (b.task i) event) t l)
    (counted : b.Counted r (b.task i) (e.trapped (b.task i) event) l back)
    (entered : r.entered = x.head.clock) (requeued : r.requeued = event.time)
    (time : event.time = x.head.clock + half * k) (slice : (k : Int) ≤ (s.entries i).slice)
    (allot : (s.entries i).level ≠ 2 → (k : Int) ≤ (s.entries i).allot) (within : k ≤ (s.entries i).left)
    (how : (k = (s.entries i).left ∧ event.reason = .exit 0) ∨
      (k ≠ (s.entries i).left ∧ (event.reason = .yield ∨ event.reason = .timer))) :
    Matches b event.time l (s.turned i k) ∧ l.current = none := by
  have on : b.mlfq = true := by simp [Batch.mlfq, policy]
  have running := under.account.steady i under.current
  have task := under.same.tasks i
  have clock : event.time = half * (s.now + k) := by rw [time, under.same.clock, Nat.mul_add]
  have own : l.tasks (b.task i) = t := by rw [settled.tasks, Function.update_self]
  have budget := settled.budget on
  have delta : (e.trapped (b.task i) event).exchange.time - r.entered = half * k := by
    change event.time - r.entered = _
    rw [entered, time, Nat.add_sub_cancel_left]
  rw [delta, Batch.charged_on on] at budget
  -- The queue, the processor and the task itself, for an exit and for a return.
  have shape : l.current = none ∧
      l.ready.contents = (s.ready ++ if ((s.entries i).spent k).left = 0 then [] else [i]).map b.task ∧
      SameTask t (((s.entries i).spent k).stopped (s.now + k))
        ((s.events.filterMap demoted).count i + if ((s.entries i).spent k).Demotes .mlfq then 1 else 0) := by
    rcases how with ⟨last, exits⟩ | ⟨more, goes⟩
    · have ends : b.Ends (b.task i) (e.trapped (b.task i) event).exchange.reason := .inl exits
      have finished : ((s.entries i).spent k).left = 0 := by
        change (s.entries i).left - k = 0
        omega
      obtain ⟨line, ⟨-, current, state⟩ | ⟨lives, -⟩⟩ := counted.stays (counted.ended ends)
      · rw [own] at state
        refine ⟨current, ?_, task.ends budget rfl rfl state settled.first settled.maxWait ?_ finished⟩
        · rw [if_pos finished, List.append_nil, line]
          exact under.same.queue
        · rw [← clock]
          cases settled.fate with
          | ended _ _ stamp => exact stamp
          | requeued other =>
            rw [state] at other
            cases other
          | kept other =>
            rw [state] at other
            exact absurd (other.trans runs) (by simp)
      · exact absurd ends lives
    · have more' : ((s.entries i).spent k).left ≠ 0 := by
        change (s.entries i).left - k ≠ 0
        omega
      have back' : back = true := by
        rcases goes with yields | ticks
        · exact counted.yielding yields
        · exact (counted.ticking ticks).mpr fun limit other => by simp [policy] at other
      obtain ⟨current, state, line⟩ := counted.goes back'
      rw [own] at state
      have unended := (under.account.fits i).unended.mpr (by simp [running])
      refine ⟨current, ?_, task.returns (by simp [running]) unended slice allot budget state settled.first
        settled.maxWait ?_ more'⟩
      · rw [if_neg more', List.map_append, ← under.same.queue, line]
        rfl
      · rw [← clock, ← requeued]
        cases settled.fate with
        | ended _ other =>
          rw [state] at other
          cases other
        | requeued _ since => exact since
        | kept other =>
          rw [state] at other
          exact absurd (other.trans runs) (by simp)
  obtain ⟨current, queue, mine⟩ := shape
  refine ⟨⟨clock, queue, settled.boost.trans under.same.boost, fun j => ?_⟩, current⟩
  have other := under.same.tasks j
  rw [settled.tasks]
  unfold Mlfq.State.turned
  dsimp only
  rw [count_demote]
  by_cases same : j = i
  · subst same
    rw [Function.update_self, Function.update_self, if_pos rfl]
    exact mine
  · rw [Function.update_of_ne same, Function.update_of_ne fun both => same (b.task_injective both), if_neg same]
    exact other

/-! ### A pass and a turn -/

/-- A pass is one more dispatch on both sides, and at most one more boost. -/
theorem Behind.step {h h' : Head} {t : Mlfq.State b.specs.length} (behind : Behind b passes h s)
    (same : Matches b h.clock h.loop s) (on : b.mlfq = true) (idle : h.loop.current = none)
    (step : b.Step h p h') (before : p.before = h.loop) (head : p.readings.head = h.clock)
    (switches : t.switches = s.switches + 1) (next : t.nextBoost = (s.boost .mlfq 40).nextBoost) :
    Behind b (passes ++ [p]) h' t := by
  obtain ⟨first, started, run⟩ := behind.reached
  have boosts := behind.boosts
  refine ⟨⟨first, started, run.snoc step⟩, ?_, ?_⟩
  · rw [dispatches_append, dispatches_single, List.length_append, behind.switches, switches]
    simp [Pass.dispatched, before, idle]
  · have due := same.due on head
    have raises : b.Boosts p ↔ s.nextBoost ≤ s.now := by
      rw [Batch.Boosts, before]
      exact due
    rw [List.countP_append, next]
    unfold Mlfq.State.boost
    by_cases late : s.nextBoost ≤ s.now
    · simp only [late, and_self, ↓reduceIte, List.countP_singleton, raises, decide_true]
      omega
    · simp only [late, and_false, ↓reduceIte, List.countP_singleton, raises, decide_false, Bool.false_eq_true]
      omega

/-- A tick of the simulator as the kernel executes it. -/
def placed (b : Batch) (x : Mlfq.Tick (Fin b.specs.length)) : Executed := ⟨x.time, b.task x.job, x.level.val⟩

theorem stopped_used (e : Mlfq.Entry) (now : Nat) : (e.stopped now).used = e.used := by
  obtain ⟨_, _, _, renewed, -⟩ := Mlfq.renew_other .mlfq e
  unfold Mlfq.Entry.stopped
  rw [renewed]
  split <;> rfl

theorem stopped_awake (e : Mlfq.Entry) (now : Nat) : ¬ (e.stopped now).Sleeps := by
  unfold Mlfq.Entry.stopped
  split <;> simp [Mlfq.Entry.Sleeps]

/-- **One pass of the kernel is one turn of the simulator.** -/
theorem Meets.step (meets : Meets b w x s) (policy : b.policy = .mlfq) (base : b.base = 0)
    (nowait : ∀ i, w.wait i = 0) (room : b.profile = .release → x.head.clock < Batch.lastBoost)
    (step : b.IdealStep w x p y) :
    ∃ t, Turns Mlfq.State.Going (w.pass .mlfq 40) s t ∧ Meets b w y t ∧
      t.trace.map (placed b) = s.trace.map (placed b) ++ p.executed ∧ s.now < t.now ∧
      half ∣ p.readings.entered ∧ half ∣ p.event.time := by
  obtain ⟨step, instant, i, own, traps, used⟩ := step
  have passed := Batch.step_view meets.coherent step
  obtain ⟨-, back, counted⟩ := Batch.step_counted meets.coherent step
  obtain ⟨t, settled⟩ := passed.settled
  have live := passed.live meets.coherent
  have whole := step
  obtain ⟨before, -, entered, -, after⟩ := step
  have waiting := meets.taken passed.entered
  rw [before, instant] at entered
  obtain ⟨j, same, under⟩ := meets.enters policy base room entered
  obtain rfl : i = j := b.task_injective (own.symm.trans same)
  have deadline := Batch.entered_deadline policy entered
  rw [own] at deadline live settled counted
  rw [deadline] at traps
  obtain ⟨k, lasts, time, ahead, within, slice, allot, how⟩ := under.lasts _ rfl traps
  have short := ((under.same.tasks i).budget (by simp [under.account.steady i under.current])).short
  have runs : (p.entry.tasks (b.task i)).state = .running := by
    rw [← own]
    exact (passed.entry.running p.task).mp passed.entered.current
  have going : s.Going := ⟨i, (meets.alive i).mp live⟩
  have turns := lasts.turns meets.account going (nowait i) under.current under.awake under.foremost
  have clock : p.readings.entered = x.head.clock := by rw [instant]; rfl
  have requeued : p.readings.requeued = p.event.time := by rw [instant]; rfl
  obtain ⟨together, idle⟩ := under.settles policy runs settled counted clock requeued time slice allot within how
  have now := under.same.clock
  have bounded := Batch.entered_bounded entered meets.bounded
  have interval : p.interval = half * k := by
    unfold Pass.interval
    rw [clock, time, Nat.add_sub_cancel_left]
  have dispatched : (s.poised .mlfq 40).switches = s.switches + 1 := by
    rw [Mlfq.poised_switches, if_pos ⟨meets.free, meets.scan.symm ▸ (meets.waits waiting).1⟩]
  obtain ⟨still, next⟩ := Mlfq.poised_clock s .mlfq 40
  rw [meets.scan] at next
  obtain ⟨passes, behind⟩ := meets.behind
  refine ⟨_, turns, ⟨?_, ?_, ?_, ?_, meets.account.turns turns, rfl, ?_, under.grid, ?_, ?_, ahead, ?_, ?_⟩, ?_, ?_, ?_, ?_⟩
  · rw [after, requeued]
    exact together
  · rw [passed.after]
    exact passed.coherent
  · rw [passed.after]
    exact idle
  · rw [passed.after, settled.boost]
    exact bounded
  · intro j
    by_cases mine : j = i
    · subst mine
      simp only [Mlfq.State.turned, Function.update_self]
      exact stopped_awake _ _
    · simp only [Mlfq.State.turned, Function.update_of_ne mine]
      exact under.awake j
  · intro j
    rw [used]
    by_cases mine : j = i
    · subst mine
      simp only [Mlfq.State.turned, Function.update_self, stopped_used]
      rw [under.used, interval, ← Nat.mul_add]
      rfl
    · simp only [Mlfq.State.turned, Function.update_of_ne mine]
      exact under.used j
  · simp only [Mlfq.State.turned, List.length_append, List.length_map, List.length_range, under.busy]
  · have paced := meets.paced
    simp only [Mlfq.State.turned, still, dispatched]
    omega
  · exact ⟨_, behind.step meets.same (by simp [Batch.mlfq, policy]) meets.idle whole before (by rw [instant]; rfl)
      dispatched next⟩
  · have level := (under.same.tasks i).level
    have clock' : p.readings.entered / half = (s.poised .mlfq 40).now := by
      rw [clock, now, Nat.mul_div_cancel_left _ half_pos]
    unfold Pass.executed
    rw [interval, Nat.mul_div_cancel_left _ half_pos, clock', own, level]
    simp only [Mlfq.State.turned, List.map_append, List.map_map, (Mlfq.poised_now s .mlfq 40).2]
    rfl
  · have positive := lasts.positive
    simp only [Mlfq.State.turned, (Mlfq.poised_now s .mlfq 40).1]
    omega
  · exact ⟨_, clock.trans now⟩
  · exact ⟨_, time.trans (by rw [now, ← Nat.mul_add])⟩

end Neonos.Scheduler
