import Mathlib
import Neonos.Fallible
import Neonos.Model.Batch
import Neonos.ReadyQueue
import Neonos.Sweep

/-! What each phase of the management loop can do, said once. Later proofs
cite these lemmas and never unfold a phase. -/
namespace Neonos.Scheduler
open StableChoice Sweep

variable {cause : Panic}

theorem checkedAdd_ok : checkedAdd a b cause = .ok c ↔ a + b ≤ usizeMax ∧ c = a + b := by
  unfold checkedAdd
  split <;> simp_all [eq_comm]

theorem checkedSub_ok : checkedSub a b cause = .ok c ↔ b ≤ a ∧ c = a - b := by
  unfold checkedSub
  split <;> simp_all [eq_comm]

theorem after_ok : after interval now = .ok deadline ↔
    0 < interval ∧ now + interval ≤ usizeMax ∧ deadline = now + interval := by
  unfold after
  split
  · rename_i positive
    rw [checkedAdd_ok]
    exact ⟨fun both => ⟨positive, both⟩, fun all => all.2⟩
  · rename_i zero
    exact ⟨by simp, fun all => absurd all.1 zero⟩

/-! ### Plain operations -/

/-- The difference that a plain subtraction leaves in a `usize`. -/
def wrappingSub (a b : Nat) : Nat := if b ≤ a then a - b else a + 2 ^ 64 - b

/-- One more fits the counter, or the build does not look. -/
def Profile.Fits (profile : Profile) (counter : Int32) : Prop := profile = .dev → counter ≠ Int32.maxValue

instance (profile : Profile) (counter : Int32) : Decidable (profile.Fits counter) :=
  inferInstanceAs (Decidable (_ → _))

/-- A counter that has counted `n` events: it is exact in a build that checks,
and otherwise modulo `2 ^ 32`. -/
structure Profile.Counts (profile : Profile) (counter : Int32) (n : Nat) : Prop where
  value : counter = Int32.ofNat n
  checked : profile = .dev → n < 2 ^ 31

namespace Profile
variable {profile : Profile} {counter counter' : Int32}

theorem sub_ok {panic : ε} :
    profile.sub a b panic = .ok c ↔ (profile = .dev → b ≤ a) ∧ c = wrappingSub a b := by
  unfold Profile.sub wrappingSub
  split
  · rename_i inside
    simp [inside, eq_comm]
  · rename_i below
    cases profile with
    | dev => simp [below]
    | release => simp [eq_comm]

theorem mul_ok {panic : ε} :
    profile.mul a b panic = .ok c ↔ (profile = .dev → a * b ≤ usizeMax) ∧ c = a * b % 2 ^ 64 := by
  have top : usizeMax + 1 = 2 ^ 64 := rfl
  unfold Profile.mul
  split
  · rename_i inside
    rw [Nat.mod_eq_of_lt (by omega)]
    simp [inside, eq_comm]
  · rename_i beyond
    cases profile with
    | dev => simp [beyond]
    | release => simp [eq_comm]

theorem bump_ok : profile.bump counter = .ok counter' ↔ profile.Fits counter ∧ counter' = counter + 1 := by
  unfold bump Fits
  split
  · rename_i full
    simp [full]
  · rename_i free
    simp only [Except.ok.injEq]
    exact ⟨fun same => ⟨fun checks last => free ⟨checks, last⟩, same.symm⟩, fun both => both.2.symm⟩

theorem bump_error : profile.bump counter = .error cause ↔
    ¬ profile.Fits counter ∧ cause = .counterOverflow := by
  unfold bump Fits
  split
  · rename_i full
    simp [full, eq_comm]
  · rename_i free
    simp only [reduceCtorEq, false_iff, not_and]
    exact fun last => absurd (fun checks full => free ⟨checks, full⟩) last

theorem Counts.zero : profile.Counts 0 0 := ⟨rfl, fun _ => by decide⟩

/-- A counter below its end counts exactly. -/
theorem ofNat_toInt (small : n < 2 ^ 31) : (Int32.ofNat n).toInt = n := Int32.toInt_ofNat_of_lt small

theorem Counts.next (counts : profile.Counts counter n) (fits : profile.Fits counter) :
    profile.Counts (counter + 1) (n + 1) := by
  obtain ⟨rfl, checked⟩ := counts
  refine ⟨(Int32.ofNat_add n 1).symm, fun checks => ?_⟩
  have small := checked checks
  by_contra last
  obtain rfl : n = 2 ^ 31 - 1 := by omega
  exact fits checks rfl

/-- A counter is at its end only in a build that checks, with `2 ^ 31 - 1` events. -/
theorem Counts.full (counts : profile.Counts counter n) (full : ¬ profile.Fits counter) :
    profile = .dev ∧ n + 1 = 2 ^ 31 := by
  simp only [Fits, not_forall, not_not] at full
  obtain ⟨checks, last⟩ := full
  refine ⟨checks, ?_⟩
  have value := ofNat_toInt (counts.checked checks)
  rw [← counts.value, last, Int32.toInt_maxValue] at value
  omega

theorem Counts.fits (counts : profile.Counts counter n) (small : profile = .dev → n + 1 < 2 ^ 31) :
    profile.Fits counter := by
  by_contra full
  obtain ⟨checks, last⟩ := counts.full full
  exact absurd last (small checks).ne

/-- A counter shows the number of events exactly while that is below `2 ^ 31`. -/
theorem Counts.exact_iff (counts : profile.Counts counter n) : counter.toInt = n ↔ n < 2 ^ 31 := by
  constructor
  · intro exact_
    have bound := counter.toInt_lt
    omega
  · intro small
    rw [counts.value]
    exact ofNat_toInt small

end Profile

/-! ### Budgets -/

/-- The full slice of a level. -/
def fullSlice (level : Nat) : Nat := slices.getD level 0

/-- The full allotment of a level. -/
def fullAllot (level : Nat) : Nat := allots.getD level 0

/-- A task with fresh budgets at a level. -/
def Task.refreshed (t : Task) (level : Nat) : Task :=
  { t with level, slice := fullSlice level, allot := fullAllot level }

theorem at_ok {table : List Nat} : at_ table index = .ok value ↔ table[index]? = some value := by
  unfold at_
  split <;> simp_all

theorem slice_ok : at_ slices level = .ok slice ↔ level ≤ 2 ∧ slice = fullSlice level := by
  rw [at_ok]
  match level with
  | 0 | 1 | 2 => simp [slices, fullSlice, eq_comm]
  | n + 3 => simp [slices]

theorem allot_ok : at_ allots level = .ok allot ↔ level ≤ 2 ∧ allot = fullAllot level := by
  rw [at_ok]
  match level with
  | 0 | 1 | 2 => simp [allots, fullAllot, eq_comm]
  | n + 3 => simp [allots]

theorem budget_ok {t t' : Task} :
    t.budget = .ok t' ↔ t.level ≤ 2 ∧ t' = t.refreshed t.level := by
  simp only [Task.budget, bind_ok, slice_ok, allot_ok, Except.ok.injEq, Task.refreshed]
  constructor
  · rintro ⟨slice, ⟨low, rfl⟩, allot, ⟨-, rfl⟩, rfl⟩
    exact ⟨low, rfl⟩
  · rintro ⟨low, rfl⟩
    exact ⟨_, ⟨low, rfl⟩, _, ⟨low, rfl⟩, rfl⟩

namespace Batch
variable {b : Batch} {r : Readings} {s s' e : Loop} {i : TaskId}

/-! ### Boost -/

/-- A boost leaves Done tasks and the table slots past the specs alone. -/
def Boosted (b : Batch) (i : TaskId) (t : Task) : Prop := i.val < b.specs.length ∧ t.state ≠ .done

instance (b : Batch) (i : TaskId) (t : Task) : Decidable (b.Boosted i t) :=
  inferInstanceAs (Decidable (_ ∧ _))

/-- A task as a boost leaves it. -/
def lift (b : Batch) (i : TaskId) (t : Task) : Task := if b.Boosted i t then t.refreshed 0 else t

/-- The task table after a boost. -/
def lifted (b : Batch) (tasks : TaskId → Task) : TaskId → Task := fun i => b.lift i (tasks i)

private theorem boostTask_turn (b : Batch) (tasks : TaskId → Task) (i : TaskId) :
    b.boostTask tasks i = pure (Function.update tasks i (b.lift i (tasks i))) := by
  have fresh : { tasks i with level := 0 }.budget = .ok ((tasks i).refreshed 0) :=
    budget_ok.mpr ⟨Nat.zero_le _, rfl⟩
  unfold boostTask
  split
  · rename_i active
    have same : b.lift i (tasks i) = (tasks i).refreshed 0 := if_pos active
    rw [fresh, same]
    rfl
  · rename_i idle
    have same : b.lift i (tasks i) = tasks i := if_neg idle
    rw [same, Function.update_eq_self]
    rfl

theorem boost_loop (b : Batch) (tasks : TaskId → Task) :
    (List.finRange N).foldlM b.boostTask tasks = .ok (b.lifted tasks) := by
  rw [foldlM_swept (boostTask_turn b) _ (List.nodup_finRange N),
    swept_all List.mem_finRange]
  rfl

/-- The time from `base` to the end of the boost period that holds a clock reading. -/
def periods (b : Batch) (now : Nat) : Nat := (wrappingSub now b.base / (20 * T) + 1) * (20 * T)

/-- The boost deadline computed from a clock reading. -/
def nextBoost (b : Batch) (now : Nat) : Nat := b.base + b.periods now % 2 ^ 64

/-- The condition that opens a pass with a boost. -/
def BoostDue (b : Batch) (r : Readings) (s : Loop) : Prop := b.mlfq = true ∧ s.boost ≤ r.head

instance (b : Batch) (r : Readings) (s : Loop) : Decidable (b.BoostDue r s) :=
  inferInstanceAs (Decidable (_ ∧ _))

/-- What a build with overflow checks asks of a boost. -/
structure Raises (b : Batch) (r : Readings) (s : Loop) : Prop where
  fits : b.profile.Fits s.boosts
  times : b.profile = .dev → b.base ≤ r.boosted ∧ b.periods r.boosted ≤ usizeMax

theorem raise_ok (raised : b.raise r s = .ok s') :
    (¬ b.BoostDue r s ∧ s' = s) ∨
      (b.BoostDue r s ∧ b.Raises r s ∧ b.nextBoost r.boosted ≤ usizeMax ∧
        s' = { s with
          tasks := b.lifted s.tasks, boosts := s.boosts + 1, boost := b.nextBoost r.boosted }) := by
  unfold raise at raised
  split at raised
  · rename_i due
    rw [boost_loop] at raised
    simp only [bind_ok, Except.ok.injEq, Profile.bump_ok, Profile.sub_ok, Profile.mul_ok, checkedAdd_ok] at raised
    obtain ⟨-, rfl, -, ⟨fits, rfl⟩, -, ⟨later, rfl⟩, -, ⟨inside, rfl⟩, -, ⟨bounded, rfl⟩, rfl⟩ := raised
    exact .inr ⟨due, ⟨fits, fun checks => ⟨later checks, inside checks⟩⟩, bounded, rfl⟩
  · rename_i early
    cases raised
    exact .inl ⟨early, rfl⟩

/-! ### Dispatch -/

/-- A task as its dispatch leaves it. -/
def started (r : Readings) (t : Task) : Task :=
  { t with
    state := .running
    maxWait := max t.maxWait (r.dispatched - t.readySince)
    first := some (t.first.getD r.dispatched) }

theorem dispatch_some (chosen : b.dispatch r s = .ok (some (i, s'))) :
    (s.current = some i ∧ s' = s) ∨
      (s.current = none ∧ ∃ ready, Takes (priority b.mlfq s.tasks) s.ready.contents i ready.contents ∧
        r.quantum + T ≤ usizeMax ∧ b.profile.Fits s.switches ∧
        s' = { s.setTask i (started r (s.tasks i)) with
          ready, current := some i, deadline := r.quantum + T, switches := s.switches + 1 }) := by
  unfold dispatch at chosen
  split at chosen
  · rename_i j held
    cases chosen
    exact .inl ⟨held, rfl⟩
  · rename_i idle
    split at chosen
    · cases chosen
    · rename_i j ready popped
      simp only [bind_ok, after_ok, Profile.bump_ok, Except.ok.injEq, Option.some.injEq, Prod.mk.injEq] at chosen
      obtain ⟨-, ⟨-, bounded, rfl⟩, -, ⟨fits, rfl⟩, rfl, rfl⟩ := chosen
      exact .inr ⟨idle, ready, Ready.pop_takes popped, bounded, fits, rfl⟩

theorem dispatch_none (stops : b.dispatch r s = .ok none) :
    s.current = none ∧ s.ready.contents = [] := by
  unfold dispatch at stops
  split at stops
  · cases stops
  · rename_i idle
    split at stops
    · rename_i empty
      exact ⟨idle, Ready.pop_none.mp empty⟩
    · simp [bind_ok] at stops

/-! ### Arming -/

/-- What MLFQ may run before the next rule boundary. -/
def available (r : Readings) (s : Loop) (t : Task) : Nat :=
  max (min (min t.slice t.allot) (s.boost - r.untilBoost)) 1

/-- The deadline a pass arms: MLFQ computes it anew, the others keep the one at hand. -/
def armedDeadline (b : Batch) (r : Readings) (i : TaskId) (s : Loop) : Nat :=
  if b.mlfq then r.armed + available r s (s.tasks i) else s.deadline

/-- A pass does not touch the timer under `Policy::Yield`, nor once a task has
used up its `Policy::Timer` count. -/
def Arms (b : Batch) (t : Task) : Prop :=
  match b.policy with
  | .yield => False
  | .timer limit => t.timers < limit
  | _ => True

instance (b : Batch) (t : Task) : Decidable (b.Arms t) := by
  unfold Arms
  split <;> infer_instance

/-- The state in which `run_task` is called. -/
def armed (b : Batch) (r : Readings) (i : TaskId) (s : Loop) : Loop :=
  { s with
    slots := Function.update s.slots i (s.tasks i).frame
    exchange := { s.exchange with expected := b.image.framePtr i }
    deadline := b.armedDeadline r i s
    timecmp := if b.Arms (s.tasks i) then b.armedDeadline r i s else s.timecmp
    stie := if b.Arms (s.tasks i) then true else s.stie }

theorem pickDeadline_ok : b.pickDeadline r (s.tasks i) s = .ok deadline ↔
    (b.mlfq = true → b.armedDeadline r i s ≤ usizeMax) ∧ deadline = b.armedDeadline r i s := by
  unfold pickDeadline armedDeadline available
  cases b.mlfq with
  | true => simp only [↓reduceIte, after_ok, lt_sup_iff, zero_lt_one, or_true, true_and, forall_const]
  | false =>
    simp only [Bool.false_eq_true, ↓reduceIte, Except.ok.injEq, false_implies, true_and]
    exact eq_comm

theorem arm_ok (ran : b.arm r i s = .ok s') :
    s' = b.armed r i s ∧ (b.mlfq = true → b.armedDeadline r i s ≤ usizeMax) := by
  unfold arm at ran
  dsimp only at ran
  split at ran
  · rename_i timed_
    obtain ⟨deadline, picked, ran⟩ := bind_ok.mp ran
    obtain ⟨bounded, same⟩ := pickDeadline_ok (s := { s with
      slots := Function.update s.slots i (s.tasks i).frame
      exchange := { s.exchange with expected := b.image.framePtr i } }) |>.mp picked
    refine ⟨?_, bounded⟩
    subst same
    dsimp only at ran
    split at ran
    · rename_i limit policy
      cases ran
      by_cases spent : limit ≤ (s.tasks i).timers
      · simp [armed, Arms, policy, spent, Nat.not_lt.mpr spent]
        rfl
      · simp [armed, Arms, policy, spent, Nat.lt_of_not_le spent, Loop.arm]
        rfl
    · rename_i free
      cases ran
      have arms : b.Arms (s.tasks i) := by
        unfold Arms
        split
        · rename_i policy
          simp [timed, policy] at timed_
        · rename_i limit policy
          exact absurd policy (free limit)
        · trivial
      simp [armed, arms, Loop.arm]
      rfl
  · rename_i off
    have policy : b.policy = .yield := by simpa [timed] using off
    cases ran
    simp [armed, armedDeadline, Arms, policy, mlfq]

/-! ### From a loop head to `run_task` -/

theorem enter_some (entered : b.enter r s = .ok (some (i, e))) :
    ∃ raised chosen, b.raise r s = .ok raised ∧ b.dispatch r raised = .ok (some (i, chosen)) ∧
      b.arm r i chosen = .ok e := by
  unfold enter at entered
  split at entered
  · simp only [bind_ok] at entered
    obtain ⟨raised, lifted, picked, dispatched, armed⟩ := entered
    cases picked with
    | none => simp at armed
    | some pick =>
      obtain ⟨j, chosen⟩ := pick
      simp only [bind_ok, Except.ok.injEq, Option.some.injEq, Prod.mk.injEq] at armed
      obtain ⟨_, armed, rfl, rfl⟩ := armed
      exact ⟨raised, chosen, lifted, dispatched, armed⟩
  · cases entered

theorem enter_none (stops : b.enter r s = .ok none) :
    ∃ raised, b.raise r s = .ok raised ∧ b.dispatch r raised = .ok none := by
  unfold enter at stops
  split at stops
  · simp only [bind_ok] at stops
    obtain ⟨raised, lifted, picked, dispatched, armed⟩ := stops
    cases picked with
    | none => exact ⟨raised, lifted, dispatched⟩
    | some pick => simp [bind_ok] at armed
  · cases stops

/-! ### From `run_task` to the next loop head -/

/-- A task after the user interval that just ended has been charged to it. -/
def charged (b : Batch) (delta : Nat) (t : Task) : Task :=
  if b.mlfq then
    { t with
      slice := t.slice - delta
      allot := if t.level < 2 then t.allot - delta else t.allot }
  else t

theorem charge_ok {t t' : Task} (ran : b.charge r time t = .ok t') :
    (b.mlfq = true → r.entered ≤ time) ∧ t' = b.charged (time - r.entered) t := by
  unfold charge at ran
  split at ran
  · rename_i on
    simp only [bind_ok, checkedSub_ok, Except.ok.injEq] at ran
    obtain ⟨_, ⟨forward, rfl⟩, rfl⟩ := ran
    exact ⟨fun _ => forward, (if_pos on).symm⟩
  · rename_i off
    cases ran
    exact ⟨fun on => absurd on off, (if_neg off).symm⟩

/-- The trap ends the task: a clean exit, or the fault its spec announces. -/
def Ends (b : Batch) (i : TaskId) (reason : Reason) : Prop :=
  reason = .exit 0 ∨ reason = .fault 2 ∧ ∃ spec, b.specs[i.val]? = some spec ∧ spec.fault = true

/-- Every way `match event.reason` can go on, with the requeue flag it leaves. -/
inductive Answered (b : Batch) (r : Readings) (i : TaskId) (s : Loop) (t : Task) :
    Loop → Task → Bool → Prop where
  | ended (how : b.Ends i s.exchange.reason) : Answered b r i s t { s with current := none }
      { t with state := .done, completion := s.exchange.time } false
  | yielded (how : s.exchange.reason = .yield) :
      Answered b r i s t s { t with yields := t.yields + 1 } true
  | preempted (how : s.exchange.reason = .timer) (free : ∀ limit, b.policy ≠ .timer limit) :
      Answered b r i s t s { t with timers := t.timers + 1 } true
  | spent (how : s.exchange.reason = .timer) (policy : b.policy = .timer limit)
      (last : t.timers + 1 = limit) :
      Answered b r i s t { s.stop with timerDone := 1 } { t with timers := t.timers + 1 } false
  | rearmed (how : s.exchange.reason = .timer) (policy : b.policy = .timer limit)
      (more : t.timers + 1 ≠ limit) (bounded : r.limit + T ≤ usizeMax) :
      Answered b r i s t { s with deadline := r.limit + T } { t with timers := t.timers + 1 } false
  | called (how : s.exchange.reason = .syscall) :
      Answered b r i s t s { t with syscalls := t.syscalls + 1 } false

theorem answer_ok {t t' : Task} (ran : b.answer r i s t = .ok (s', t', requeue)) :
    Answered b r i s t s' t' requeue := by
  unfold answer at ran
  split at ran
  · rename_i code reason
    split at ran
    · rename_i clean
      subst clean
      cases ran
      exact .ended (.inl reason)
    · cases ran
  · rename_i cause reason
    split at ran
    · cases ran
    · rename_i spec held
      split at ran
      · rename_i announced
        obtain ⟨fault, rfl⟩ := announced
        cases ran
        exact .ended (.inr ⟨reason, spec, held, fault⟩)
      · cases ran
  · rename_i reason
    cases ran
    exact .yielded reason
  · rename_i reason
    split at ran
    · rename_i limit policy
      dsimp only at ran
      split at ran
      · rename_i last
        cases ran
        exact .spent reason policy last
      · rename_i more
        simp only [bind_ok, after_ok, Except.ok.injEq, Prod.mk.injEq] at ran
        obtain ⟨_, ⟨-, bounded, rfl⟩, rfl, rfl, rfl⟩ := ran
        exact .rearmed reason policy more bounded
    · rename_i free
      cases ran
      exact .preempted reason free
  · rename_i reason
    cases ran
    exact .called reason

/-- Every way the budget rules can change a task and the requeue flag. -/
inductive Accounted (b : Batch) (s : Loop) (t : Task) (requeue : Bool) : Task → Bool → Prop where
  | ended (stopped : t.state = .done) : Accounted b s t requeue t requeue
  | demoted (live : t.state ≠ .done) (mlfq : b.mlfq = true) (low : t.level < 2)
      (used : t.allot = 0) : Accounted b s t requeue
        ({ t with demotions := t.demotions + 1 }.refreshed (t.level + 1)) true
  | refilled (live : t.state ≠ .done) (mlfq : b.mlfq = true) (left : ¬ (t.level < 2 ∧ t.allot = 0))
      (low : t.level ≤ 2) (used : t.slice = 0) :
      Accounted b s t requeue { t with slice := fullSlice t.level } true
  | inside (live : t.state ≠ .done) (mlfq : b.mlfq = true) (left : ¬ (t.level < 2 ∧ t.allot = 0))
      (some_ : t.slice ≠ 0) :
      Accounted b s t requeue t (requeue || decide (s.boost ≤ s.exchange.time))
  | expired (live : t.state ≠ .done) (policy : b.policy = .rr) (late : s.deadline ≤ s.exchange.time) :
      Accounted b s t requeue t true
  | kept (live : t.state ≠ .done) (mlfq : b.mlfq = false)
      (early : b.policy = .rr → ¬ s.deadline ≤ s.exchange.time) : Accounted b s t requeue t requeue

theorem account_ok {t t' : Task} (ran : b.account s t requeue = .ok (t', requeue')) :
    Accounted b s t requeue t' requeue' := by
  unfold account at ran
  by_cases stopped : t.state = .done
  · simp only [stopped, ne_eq, not_true_eq_false, false_and, ↓reduceIte, Except.ok.injEq,
      Prod.mk.injEq] at ran
    obtain ⟨rfl, rfl⟩ := ran
    exact .ended stopped
  · by_cases on : b.mlfq = true
    · simp only [ne_eq, stopped, not_false_eq_true, on, and_self, ↓reduceIte, bind_ok, Except.ok.injEq,
        Prod.mk.injEq, Prod.exists] at ran
      obtain ⟨t₁, flag, ran, rfl, rfl⟩ := ran
      unfold demote at ran
      split at ran
      · rename_i due
        simp only [bind_ok, budget_ok, Except.ok.injEq, Prod.mk.injEq] at ran
        obtain ⟨_, ⟨-, rfl⟩, rfl, rfl⟩ := ran
        exact .demoted stopped on due.1 due.2
      · rename_i left
        split at ran
        · rename_i used
          simp only [bind_ok, slice_ok, Except.ok.injEq, Prod.mk.injEq] at ran
          obtain ⟨_, ⟨low, rfl⟩, rfl, rfl⟩ := ran
          exact .refilled stopped on left low used
        · rename_i some_
          cases ran
          exact .inside stopped on left some_
    · have off : b.mlfq = false := by simpa using on
      simp only [ne_eq, stopped, not_false_eq_true, off, Bool.false_eq_true, and_false, ↓reduceIte,
        true_and] at ran
      split at ran
      · rename_i late
        cases ran
        exact .expired stopped late.1 late.2
      · rename_i early
        cases ran
        exact .kept stopped off (fun policy late => early ⟨policy, late⟩)

/-- A task on its way back into the queue. -/
def requeued (r : Readings) (reason : Reason) (t : Task) : Task :=
  { t with
    preemptions := if reason = .timer ∨ reason = .syscall then t.preemptions + 1 else t.preemptions
    state := .ready
    readySince := r.requeued }

theorem store_ok {t : Task} (ran : store r i s t requeue = .ok s') :
    (requeue = false ∧ s' = s.setTask i t) ∨
      (requeue = true ∧ i ∉ s.ready.contents ∧ ∃ ready, ready.contents = s.ready.contents ++ [i] ∧
        s' = { s.setTask i (requeued r s.exchange.reason t) with ready, current := none }) := by
  unfold store at ran
  cases requeue with
  | false =>
    cases ran
    exact .inl ⟨rfl, rfl⟩
  | true =>
    simp only [↓reduceIte] at ran
    split at ran
    · rename_i ready pushed
      obtain ⟨fresh, appended⟩ := Ready.push_ok pushed
      cases ran
      exact .inr ⟨rfl, fresh, ready, appended, rfl⟩
    · cases ran

theorem settle_ok (ran : b.settle r i s = .ok s') :
    ∃ s₁ t₁ flag t₂ requeue s₂,
      (b.mlfq = true → r.entered ≤ s.exchange.time) ∧
      Answered b r i s
        (b.charged (s.exchange.time - r.entered) { s.tasks i with frame := s.exchange.frame })
        s₁ t₁ flag ∧
      Accounted b s₁ t₁ flag t₂ requeue ∧ store r i s₁ t₂ requeue = .ok s₂ ∧
      s₂.record b.profile i requeue = .ok s' := by
  unfold settle at ran
  simp only [bind_ok] at ran
  obtain ⟨t₀, paid, ⟨s₁, t₁, flag⟩, answered, ⟨t₂, requeue⟩, accounted, s₂, stored, kept⟩ := ran
  obtain ⟨forward, rfl⟩ := charge_ok paid
  exact ⟨s₁, t₁, flag, t₂, requeue, s₂, forward, answer_ok answered, account_ok accounted, stored, kept⟩

end Batch

namespace Loop

/-- The trap goes into the event record, which is full. -/
def Drops (s : Loop) (requeue : Bool) : Prop :=
  (s.exchange.reason ≠ .syscall ∨ requeue = true) ∧ ¬ s.trace.length < 64

/-- The event record grown by one trap: kept while there is room, else counted. -/
def recordedIn (trace : List (TaskId × Reason)) (dropped : Int32) (event : TaskId × Reason) :
    List (TaskId × Reason) × Int32 :=
  if trace.length < 64 then (trace ++ [event], dropped) else (trace, dropped + 1)

/-- The loop behind the event record, where that does not stop it. -/
def recorded (s : Loop) (i : TaskId) (requeue : Bool) : Loop :=
  let entry := if s.exchange.reason ≠ .syscall ∨ requeue = true
    then recordedIn s.trace s.dropped (i, s.exchange.reason) else (s.trace, s.dropped)
  { s with trace := entry.1, dropped := entry.2 }

theorem record_ok {profile : Profile} {s s' : Loop} : s.record profile i requeue = .ok s' ↔
    (s.Drops requeue → profile.Fits s.dropped) ∧ s' = s.recorded i requeue := by
  unfold record recorded recordedIn Drops
  by_cases counts : s.exchange.reason ≠ .syscall ∨ requeue = true
  · rw [if_pos counts, if_pos counts]
    by_cases room : s.trace.length < 64
    · rw [if_pos room, if_pos room]
      simp [room, eq_comm]
    · rw [if_neg room, if_neg room]
      simp only [bind_ok, Profile.bump_ok, Except.ok.injEq, counts, room, not_false_eq_true, and_self, true_implies]
      constructor
      · rintro ⟨_, ⟨fits, rfl⟩, rfl⟩
        exact ⟨fits, rfl⟩
      · rintro ⟨fits, rfl⟩
        exact ⟨_, ⟨fits, rfl⟩, rfl⟩
  · rw [if_neg counts, if_neg counts]
    simp only [Except.ok.injEq]
    exact ⟨fun same => ⟨fun drops => absurd drops.1 counts, same.symm⟩, fun both => both.2.symm⟩

theorem record_error {profile : Profile} {s : Loop} (failed : s.record profile i requeue = .error cause) :
    cause = .counterOverflow ∧ s.Drops requeue ∧ ¬ profile.Fits s.dropped := by
  unfold record at failed
  split at failed
  · rename_i counts
    split at failed
    · cases failed
    · rename_i full
      rcases bind_error.mp failed with last | ⟨_, -, failed⟩
      · obtain ⟨unfit, rfl⟩ := Profile.bump_error.mp last
        exact ⟨rfl, ⟨counts, full⟩, unfit⟩
      · cases failed
  · cases failed

end Loop

/-! ### The two halves of a pass -/

namespace Batch
variable {b : Batch} {r : Readings} {s s' e : Loop} {i : TaskId}

/-- The task table a pass dispatches from: boosted when the boost is due. -/
def risen (b : Batch) (r : Readings) (s : Loop) : TaskId → Task :=
  if b.BoostDue r s then b.lifted s.tasks else s.tasks

/-- Everything the first half of a pass does to the scheduling state. -/
structure Entered (b : Batch) (r : Readings) (s : Loop) (i : TaskId) (e : Loop) : Prop where
  current : e.current = some i
  boost : e.boost = if b.BoostDue r s then b.nextBoost r.boosted else s.boost
  boosts : e.boosts = if b.BoostDue r s then s.boosts + 1 else s.boosts
  trace : e.trace = s.trace
  dropped : e.dropped = s.dropped
  slot : e.slots = Function.update s.slots i (e.tasks i).frame
  expected : e.exchange.expected = b.image.framePtr i
  choice : (s.current = some i ∧ e.tasks = b.risen r s ∧ e.ready = s.ready ∧ e.switches = s.switches) ∨
    (s.current = none ∧ Takes (priority b.mlfq (b.risen r s)) s.ready.contents i e.ready.contents ∧
      e.tasks = Function.update (b.risen r s) i (started r (b.risen r s i)) ∧
      e.switches = s.switches + 1)
  raising : b.BoostDue r s → b.profile.Fits s.boosts
  taking : s.current = none → b.profile.Fits s.switches

theorem enter_view (entered : b.enter r s = .ok (some (i, e))) : b.Entered r s i e := by
  obtain ⟨raised, chosen, lifted, picked, ran⟩ := enter_some entered
  obtain ⟨rfl, -⟩ := arm_ok ran
  have shape : raised = { s with
      tasks := b.risen r s
      boosts := if b.BoostDue r s then s.boosts + 1 else s.boosts
      boost := if b.BoostDue r s then b.nextBoost r.boosted else s.boost } := by
    rcases raise_ok lifted with ⟨early, rfl⟩ | ⟨due, -, -, rfl⟩
    · simp [risen, early]
    · simp [risen, due]
  have raising (due : b.BoostDue r s) : b.profile.Fits s.boosts := by
    rcases raise_ok lifted with ⟨early, -⟩ | ⟨-, raises, -⟩
    · exact absurd due early
    · exact raises.fits
  subst shape
  rcases dispatch_some picked with ⟨held, rfl⟩ | ⟨idle, ready, taken, -, fits, rfl⟩
  · exact ⟨held, rfl, rfl, rfl, rfl, rfl, rfl, .inl ⟨held, rfl, rfl, rfl⟩, raising,
      fun idle => absurd (idle.symm.trans held) (by simp)⟩
  · exact ⟨rfl, rfl, rfl, rfl, rfl, rfl, rfl, .inr ⟨idle, taken, rfl, rfl⟩, raising, fun _ => fits⟩

theorem break_view (stops : b.enter r s = .ok none) : s.current = none ∧ s.ready.contents = [] := by
  obtain ⟨raised, lifted, empty⟩ := enter_none stops
  have idle := dispatch_none empty
  rcases raise_ok lifted with ⟨-, rfl⟩ | ⟨-, -, -, rfl⟩
  · exact idle
  · exact idle

/-- What becomes of the task that trapped, and with it of the queue. -/
inductive Fate (b : Batch) (r : Readings) (i : TaskId) (e : Loop) (t : Task) (s' : Loop) : Prop where
  | ended (how : b.Ends i e.exchange.reason) (state : t.state = .done)
      (stamp : t.completion = e.exchange.time) (ready : s'.ready = e.ready) (current : s'.current = none)
  | requeued (state : t.state = .ready) (since : t.readySince = r.requeued)
      (fresh : i ∉ e.ready.contents) (ready : s'.ready.contents = e.ready.contents ++ [i])
      (current : s'.current = none)
  | kept (state : t.state = (e.tasks i).state) (since : t.readySince = (e.tasks i).readySince)
      (ready : s'.ready = e.ready) (current : s'.current = e.current)

/-- What the settled task keeps or gains of its budget under MLFQ. `paid` is
the task after the charge. -/
inductive Budgeted (b : Batch) (i : TaskId) (e : Loop) (paid t : Task) : Prop where
  | ended (how : b.Ends i e.exchange.reason) (state : t.state = .done) (level : t.level = paid.level)
      (slice : t.slice = paid.slice) (allot : t.allot = paid.allot)
      (demotions : t.demotions = paid.demotions)
  | demoted (low : paid.level < 2) (used : paid.allot = 0) (state : t.state = .ready)
      (level : t.level = paid.level + 1) (slice : t.slice = fullSlice (paid.level + 1))
      (allot : t.allot = fullAllot (paid.level + 1)) (demotions : t.demotions = paid.demotions + 1)
  | refilled (left : ¬ (paid.level < 2 ∧ paid.allot = 0)) (low : paid.level ≤ 2)
      (used : paid.slice = 0) (state : t.state = .ready) (level : t.level = paid.level)
      (slice : t.slice = fullSlice paid.level) (allot : t.allot = paid.allot)
      (demotions : t.demotions = paid.demotions)
  | inside (left : ¬ (paid.level < 2 ∧ paid.allot = 0)) (some_ : paid.slice ≠ 0)
      (live : t.state ≠ .done) (level : t.level = paid.level) (slice : t.slice = paid.slice)
      (allot : t.allot = paid.allot) (demotions : t.demotions = paid.demotions)

/-- Everything the second half of a pass does to the scheduling state. -/
structure Settled (b : Batch) (r : Readings) (i : TaskId) (e : Loop) (t : Task) (s' : Loop) : Prop where
  tasks : s'.tasks = Function.update e.tasks i t
  boost : s'.boost = e.boost
  boosts : s'.boosts = e.boosts
  switches : s'.switches = e.switches
  exchange : s'.exchange = e.exchange
  slots : s'.slots = e.slots
  frame : t.frame = e.exchange.frame
  first : t.first = (e.tasks i).first
  maxWait : t.maxWait = (e.tasks i).maxWait
  fate : b.Fate r i e t s'
  forward : b.mlfq = true → r.entered ≤ e.exchange.time
  budget : b.mlfq = true →
    b.Budgeted i e (b.charged (e.exchange.time - r.entered) (e.tasks i)) t

@[simp] theorem charged_frame (delta : Nat) (t : Task) (frame : TrapFrame) :
    b.charged delta { t with frame } = { b.charged delta t with frame } := by
  unfold charged
  split <;> rfl

/-- The charge touches the two budgets only. -/
theorem charged_eq (b : Batch) (delta : Nat) (t : Task) :
    ∃ slice allot, b.charged delta t = { t with slice, allot } := by
  unfold charged
  split
  · exact ⟨_, _, rfl⟩
  · exact ⟨t.slice, t.allot, rfl⟩

/-- The fields of a task that `match event.reason` leaves alone. -/
structure Untouched (t t' : Task) : Prop where
  frame : t'.frame = t.frame
  level : t'.level = t.level
  slice : t'.slice = t.slice
  allot : t'.allot = t.allot
  demotions : t'.demotions = t.demotions
  first : t'.first = t.first
  maxWait : t'.maxWait = t.maxWait
  readySince : t'.readySince = t.readySince

theorem answered_task {t t' : Task} (ran : Answered b r i s t s' t' flag) :
    Untouched t t' ∧
      ((b.Ends i s.exchange.reason ∧ t'.state = .done ∧ t'.completion = s.exchange.time ∧
          flag = false ∧ s'.current = none) ∨ (t'.state = t.state ∧ s'.current = s.current)) := by
  cases ran with
  | ended how => exact ⟨⟨rfl, rfl, rfl, rfl, rfl, rfl, rfl, rfl⟩, .inl ⟨how, rfl, rfl, rfl, rfl⟩⟩
  | yielded how => exact ⟨⟨rfl, rfl, rfl, rfl, rfl, rfl, rfl, rfl⟩, .inr ⟨rfl, rfl⟩⟩
  | preempted how free => exact ⟨⟨rfl, rfl, rfl, rfl, rfl, rfl, rfl, rfl⟩, .inr ⟨rfl, rfl⟩⟩
  | spent how policy last => exact ⟨⟨rfl, rfl, rfl, rfl, rfl, rfl, rfl, rfl⟩, .inr ⟨rfl, rfl⟩⟩
  | rearmed how policy more bounded =>
    exact ⟨⟨rfl, rfl, rfl, rfl, rfl, rfl, rfl, rfl⟩, .inr ⟨rfl, rfl⟩⟩
  | called how => exact ⟨⟨rfl, rfl, rfl, rfl, rfl, rfl, rfl, rfl⟩, .inr ⟨rfl, rfl⟩⟩

theorem answered_loop {t t' : Task} (ran : Answered b r i s t s' t' flag) :
    ∃ current deadline stie timecmp timerDone,
      s' = { s with current, deadline, stie, timecmp, timerDone } := by
  cases ran <;> exact ⟨_, _, _, _, _, rfl⟩

private theorem accounted_task {t t' : Task} (ran : Accounted b s t flag t' requeue) :
    t'.frame = t.frame ∧ t'.first = t.first ∧ t'.maxWait = t.maxWait ∧
      t'.readySince = t.readySince ∧ t'.state = t.state ∧ t'.completion = t.completion ∧
      (t.state = .done → t' = t ∧ requeue = flag) := by
  cases ran with
  | ended stopped => exact ⟨rfl, rfl, rfl, rfl, rfl, rfl, fun _ => ⟨rfl, rfl⟩⟩
  | demoted live | refilled live | inside live | expired live | kept live =>
    exact ⟨rfl, rfl, rfl, rfl, rfl, rfl, fun stopped => absurd stopped live⟩

private theorem accounted_budget {t t' : Task} (on : b.mlfq = true) (live : t.state ≠ .done)
    (ran : Accounted b s t flag t' requeue) :
    (t.level < 2 ∧ t.allot = 0 ∧ requeue = true ∧
        t' = { t with demotions := t.demotions + 1 }.refreshed (t.level + 1)) ∨
      (¬ (t.level < 2 ∧ t.allot = 0) ∧ t.level ≤ 2 ∧ t.slice = 0 ∧ requeue = true ∧
        t' = { t with slice := fullSlice t.level }) ∨
      (¬ (t.level < 2 ∧ t.allot = 0) ∧ t.slice ≠ 0 ∧ t' = t) := by
  cases ran with
  | ended stopped => exact absurd stopped live
  | demoted _ _ low used => exact .inl ⟨low, used, rfl, rfl⟩
  | refilled _ _ left low used => exact .inr (.inl ⟨left, low, used, rfl, rfl⟩)
  | inside _ _ left some_ => exact .inr (.inr ⟨left, some_, rfl⟩)
  | expired _ policy => simp [mlfq, policy] at on
  | kept _ off => simp [off] at on

theorem settle_view (running : (e.tasks i).state = .running) (ran : b.settle r i e = .ok s') :
    ∃ t, b.Settled r i e t s' := by
  obtain ⟨s₁, t₁, flag, t₂, requeue, s₂, forward, answered, accounted, stored, kept⟩ := settle_ok ran
  obtain ⟨-, rfl⟩ := Loop.record_ok.mp kept
  obtain ⟨slice, allot, paid⟩ := charged_eq b (e.exchange.time - r.entered) (e.tasks i)
  rw [charged_frame] at answered
  generalize rest : b.charged (e.exchange.time - r.entered) (e.tasks i) = t₀ at answered
  have live : t₀.state = .running := by rw [← rest, paid]; exact running
  have first : t₀.first = (e.tasks i).first := by rw [← rest, paid]
  have maxWait : t₀.maxWait = (e.tasks i).maxWait := by rw [← rest, paid]
  have since : t₀.readySince = (e.tasks i).readySince := by rw [← rest, paid]
  obtain ⟨same, fate⟩ := answered_task answered
  obtain ⟨current, deadline, stie, timecmp, timerDone, rfl⟩ := answered_loop answered
  obtain ⟨frame₂, first₂, maxWait₂, since₂, state₂, stamp₂, stopped⟩ := accounted_task accounted
  have budget (t : Task) (state : requeue = true → t.state = .ready)
      (kept : requeue = false → t.state = t₂.state) (level : t.level = t₂.level)
      (slice : t.slice = t₂.slice) (allot : t.allot = t₂.allot)
      (demotions : t.demotions = t₂.demotions) (on : b.mlfq = true) : b.Budgeted i e t₀ t := by
    rcases fate with ⟨how, done, -, rfl, -⟩ | ⟨state₁, -⟩
    · obtain ⟨rfl, rfl⟩ := stopped done
      exact .ended how ((kept rfl).trans done) (level.trans same.level) (slice.trans same.slice)
        (allot.trans same.allot) (demotions.trans same.demotions)
    · have notDone : t₁.state ≠ .done := by rw [state₁, live]; simp
      rcases accounted_budget on notDone accounted with
        ⟨low, used, rfl, rfl⟩ | ⟨left, low, used, rfl, rfl⟩ | ⟨left, some_, rfl⟩
      · exact .demoted (same.level ▸ low) (same.allot ▸ used) (state rfl)
          (level.trans (congrArg (· + 1) same.level)) (slice.trans (by simp [Task.refreshed, same.level]))
          (allot.trans (by simp [Task.refreshed, same.level]))
          (demotions.trans (by simp [Task.refreshed, same.demotions]))
      · exact .refilled (by simpa [same.level, same.allot] using left) (same.level ▸ low)
          (same.slice ▸ used) (state rfl) (level.trans same.level)
          (slice.trans (by simp [same.level])) (allot.trans same.allot) (demotions.trans same.demotions)
      · refine .inside (by simpa [same.level, same.allot] using left) (same.slice ▸ some_) ?_
          (level.trans same.level) (slice.trans same.slice) (allot.trans same.allot)
          (demotions.trans same.demotions)
        cases requeue with
        | true => rw [state rfl]; simp
        | false => rw [kept rfl]; exact notDone
  rcases store_ok stored with ⟨rfl, rfl⟩ | ⟨rfl, fresh, ready, appended, rfl⟩
  · refine ⟨t₂, rfl, rfl, rfl, rfl, rfl, rfl, frame₂.trans same.frame, ?_, ?_, ?_, forward, ?_⟩
    · rw [first₂, same.first, ← first]
    · rw [maxWait₂, same.maxWait, ← maxWait]
    · rcases fate with ⟨how, done, stamp, -, idle⟩ | ⟨state₁, held⟩
      · exact .ended how (state₂.trans done) (stamp₂.trans stamp) rfl idle
      · exact .kept (by rw [state₂, state₁, running]; exact live)
          (by rw [since₂, same.readySince, ← since]) rfl held
    · rw [rest]
      exact budget t₂ (by simp) (fun _ => rfl) rfl rfl rfl rfl
  · refine ⟨_, rfl, rfl, rfl, rfl, rfl, rfl, frame₂.trans same.frame, ?_, ?_, ?_, forward, ?_⟩
    · rw [← first, ← same.first, ← first₂]; rfl
    · rw [← maxWait, ← same.maxWait, ← maxWait₂]; rfl
    · exact .requeued rfl rfl fresh appended rfl
    · rw [rest]
      exact budget _ (fun _ => rfl) (by simp) rfl rfl rfl rfl

end Batch

end Neonos.Scheduler
