import Neonos.SameTurn

/-! The kernel's MLFQ and `experiments/mlfq.py` make the same schedule: turn by
turn, with the same numbers in the end. A build with overflow checks gets there
with fewer than `2 ^ 31` dispatches, one without before the last boost deadline
that fits a `usize`. -/
namespace Neonos.Scheduler
open WhileLoop Runs

variable {b : Batch} {w : Mlfq.Workload b.specs.length} {clock : Nat} {l : Loop} {s : Mlfq.State b.specs.length}
  {r : Readings} {x y : Bench b.specs.length} {passes : List Pass}

/-- A batch has a task. -/
theorem Batch.someone (b : Batch) : Nonempty (Fin b.specs.length) := ⟨⟨0, List.length_pos_iff.mpr b.nonempty⟩⟩

/-! ### Runs -/

theorem start_meets (base : b.base = 0) (early : ∀ i, w.arrival i = 0) (proper : ∀ i, 0 < w.service i)
    (started : b.start = .ok l) : Meets b w ⟨⟨l, b.base⟩, fun _ => 0⟩ (w.start 40).scan := by
  have fits := Batch.start_bounded started
  obtain ⟨l', ran, line, made, -, idle, boost, -⟩ := Batch.start_spec fits
  rw [started] at ran
  cases ran
  have head := (Mlfq.start_scan_head w 40).1
  have shape : (w.start 40).scan = _ := Mlfq.start_scan early proper
  rw [shape] at head ⊢
  refine ⟨⟨?_, line, ?_, fun i => ?_⟩, Batch.start_coherent started, idle, ?_, head, rfl, fun i => ?_, ?_,
    fun _ => rfl, rfl, Nat.zero_le _, Nat.zero_le _, [], ⟨l, started, .nil⟩, rfl, Nat.le_refl 40⟩
  · exact base
  · rw [boost, base]
    rfl
  · rw [made]
    refine ⟨rfl, fun _ => .fresh rfl rfl rfl rfl, fun _ => base, rfl, fun d ended => ?_, rfl, rfl⟩
    cases ended
  · rw [boost]
    exact fits
  · simp [Mlfq.Entry.Sleeps]
  · exact dvd_refl 40

/-- A run of the kernel, turn by turn. -/
theorem Meets.run (meets : Meets b w x s) (policy : b.policy = .mlfq) (base : b.base = 0)
    (nowait : ∀ i, w.wait i = 0) (run : Run (b.IdealStep w) x passes y)
    (room : ∀ x s p y, Meets b w x s → p ∈ passes → b.IdealStep w x p y → b.profile = .release →
      x.head.clock < Batch.lastBoost) :
    ∃ t, Turns Mlfq.State.Going (w.pass .mlfq 40) s t ∧ Meets b w y t ∧
      t.trace.map (placed b) = s.trace.map (placed b) ++ passes.flatMap Pass.executed ∧
      ∀ p ∈ passes, half ∣ p.readings.entered ∧ half ∣ p.event.time := by
  induction run with
  | nil => exact ⟨s, .done, meets, by simp, by simp⟩
  | @snoc passes y p z _ last ih =>
    obtain ⟨t, turns, there, trace, whole⟩ :=
      ih fun x s q y here member => room x s q y here (List.mem_append_left _ member)
    obtain ⟨u, further, here, more, -, entered, time⟩ :=
      there.step policy base nowait (room y t p z there (by simp) last) last
    refine ⟨u, turns.append further, here, ?_, fun q member => ?_⟩
    · rw [more, trace]
      simp
    · rcases List.mem_append.mp member with before | now
      · exact whole q before
      · rw [List.mem_singleton.mp now]
        exact ⟨entered, time⟩

/-- When the kernel's loop stops all jobs of the simulator are done. -/
theorem Meets.over (meets : Meets b w x s) (stops : b.enter r x.head.loop = .ok none) : ¬ s.Going := by
  rintro ⟨i, unended⟩
  exact (meets.alive i).mpr unended (Batch.break_done meets.coherent stops (b.task i))

/-- The numbers of both sides at the end. -/
theorem Meets.agrees (meets : Meets b w x s) (ended : Mlfq.Ended w s) (base : b.base = 0)
    (early : ∀ i, w.arrival i = 0) (proper : ∀ i, 0 < w.service i)
    (trace : s.trace.map (placed b) = passes.flatMap Pass.executed)
    (whole : ∀ p ∈ passes, half ∣ p.readings.entered ∧ half ∣ p.event.time) :
    Agrees b w passes x.head.loop.tasks (s.outcome w) := by
  refine ⟨whole, ?_, fun i => ?_, fun i => ?_, fun i => ?_, fun i => ?_⟩
  · rw [← trace]
    unfold Mlfq.State.outcome
    rw [List.forall₂_map_left_iff, List.forall₂_map_right_iff, List.forall₂_same]
    exact fun tick _ => ⟨rfl, ⟨tick.job, rfl, rfl⟩, rfl⟩
  · have named (events : List (Mlfq.Event (Fin b.specs.length))) :
        (events.map w.labelEvent).filterMap demoted = (events.filterMap demoted).map w.name := by
      rw [List.filterMap_map, List.map_filterMap]
      congr 1
      funext event
      cases event <;> rfl
    unfold Mlfq.State.outcome
    rw [named, List.count_map_of_injective _ _ w.distinct]
    exact (meets.same.tasks i).demotions
  · obtain ⟨first, -, -, -, met, -⟩ := ended.endpoints (proper i)
    refine ⟨half * first, ?_, ?_⟩
    · rw [(meets.same.tasks i).first, met]
      rfl
    · simp [Mlfq.State.outcome, Mlfq.State.metrics, met, base, early]
  · obtain ⟨-, last, -, -, -, done⟩ := ended.endpoints (proper i)
    rw [(meets.same.tasks i).done _ done]
    simp [Mlfq.State.outcome, Mlfq.State.metrics, done, base, early]
  · exact (meets.same.tasks i).maxWait

/-- At the end every tick has been executed. -/
theorem Meets.total (meets : Meets b w x s) (ended : Mlfq.Ended w s) : s.now = ∑ i, w.service i := by
  rw [← meets.busy, Mlfq.length_times]
  exact Finset.sum_congr rfl fun i _ => ended.whole i

/-! ### The run goes through -/

/-- The services end by the last boost deadline that fits a `usize`. -/
def Room (total : Nat) : Prop := half * total ≤ Batch.lastBoost

instance (total : Nat) : Decidable (Room total) := inferInstanceAs (Decidable (_ ≤ _))

/-- While somebody waits, the end is still ahead. -/
theorem Room.before (room : Room (∑ i, w.service i)) (meets : Meets b w x s)
    (waits : x.head.loop.ready.contents ≠ []) : x.head.clock < Batch.lastBoost := by
  rw [meets.same.clock]
  exact (Nat.mul_lt_mul_of_pos_left (meets.waits waits).2.2 half_pos).trans_le room

/-- The kernel stops only when it is done, or at its counter of switches in a
build that checks. -/
theorem Meets.continues (meets : Meets b w x s) (policy : b.policy = .mlfq) (base : b.base = 0)
    (room : b.profile = .release → Room (∑ i, w.service i))
    (few : b.profile = .dev → x.head.loop.ready.contents ≠ [] → s.switches + 1 < 2 ^ 31) :
    b.enter (.instant x.head.clock x.head.clock) x.head.loop = .ok none ∨ ∃ p y, b.IdealStep w x p y := by
  have calm : ¬ b.Overflows (.instant x.head.clock x.head.clock) x.head.loop := fun full => by
    obtain ⟨checks, waits, last⟩ := meets.overflows rfl full
    exact absurd last (few checks waits).ne
  obtain ⟨picked, entered⟩ := Batch.enter_instant policy meets.coherent (meets.raisable base) meets.bounded
    (Batch.lastBoost_room meets.clock_le) calm
  cases picked with
  | none => exact .inl entered
  | some pick =>
    obtain ⟨j, e⟩ := pick
    have view := Batch.enter_view entered
    obtain ⟨i, rfl, under⟩ :=
      meets.enters policy base (fun release => (room release).before meets (meets.taken view)) entered
    have deadline := Batch.entered_deadline policy entered
    obtain ⟨event, traps, forward, how⟩ := traps_exist w i (x.used i)
      (show x.head.clock ≤ e.timecmp from deadline ▸ Nat.le_add_right ..)
    obtain ⟨k, -, time, ahead, -⟩ := under.lasts (.instant x.head.clock x.head.clock) rfl (deadline ▸ traps)
    have near : event.time ≤ Batch.lastBoost := by
      rw [time, under.same.clock, ← Nat.mul_add]
      refine le_trans ?_ (under.same.boost_le under.grid (Batch.entered_bounded entered meets.bounded))
      rw [under.same.boost]
      exact Nat.mul_le_mul_left half ahead
    have entry := Batch.entered_coherent meets.coherent view
    have low : (e.tasks (b.task i)).level ≤ 2 := by
      rw [(under.same.tasks i).level]
      omega
    have fits : b.profile.Fits (e.trapped (b.task i) event).dropped := by
      rw [show (e.trapped (b.task i) event).dropped = x.head.loop.dropped from view.dropped]
      exact meets.drops policy
    obtain ⟨l, settled⟩ := Batch.settle_instant (b := b) (Batch.trapped_coherent entry event) view.current
      (fun _ => low) forward (Batch.lastBoost_room near) fits how
    let p : Pass := ⟨x.head.loop, .instant x.head.clock event.time, b.task i, e, event, l⟩
    refine .inr ⟨p, ⟨⟨l, event.time⟩, Function.update x.used i (x.used i + p.interval)⟩, ?_, rfl, i, rfl, traps, rfl⟩
    exact ⟨rfl, Batch.instant_nondecreasing forward, entered, settled, rfl⟩

/-- The kernel gets to the end with the simulator, if its build can count the
dispatches of the simulator, or there is room for its times. -/
theorem Meets.completes (meets : Meets b w x s) (policy : b.policy = .mlfq) (base : b.base = 0)
    (nowait : ∀ i, w.wait i = 0) (leads : w.Leads .mlfq 40 s final)
    (room : b.profile = .release → Room (∑ i, w.service i)) (few : b.profile = .dev → final.switches < 2 ^ 31) :
    ∃ passes y, Run (b.IdealStep w) x passes y ∧
      b.enter (.instant y.head.clock y.head.clock) y.head.loop = .ok none := by
  generalize left : (∑ i, w.service i) - s.now = rest
  induction rest using Nat.strongRecOn generalizing x s with
  | ind rest ih =>
    have dispatches (waits : x.head.loop.ready.contents ≠ []) : s.switches + 1 ≤ final.switches := by
      obtain ⟨ready, going, -⟩ := meets.waits waits
      exact meets.account.leads_dispatch meets.free (meets.scan.symm ▸ ready) going leads
    rcases meets.continues policy base room fun checks waits => (dispatches waits).trans_lt (few checks) with
      stops | ⟨p, y, step⟩
    · exact ⟨[], x, .nil, stops⟩
    · have waits := meets.taken (Batch.step_view meets.coherent step.1).entered
      obtain ⟨t, turns, there, -, later, -⟩ :=
        meets.step policy base nowait (fun release => (room release).before meets waits) step
      have past := (meets.waits waits).2.2
      obtain ⟨passes, z, run, stops⟩ := ih _ (by omega) there (turns.rest leads) rfl
      exact ⟨p :: passes, z, .cons step run, stops⟩

/-- A pass that begins at the last boost deadline does not trap at a tick: the
boost deadline has wrapped. -/
theorem Meets.early (meets : Meets b w x s) (policy : b.policy = .mlfq) (base : b.base = 0)
    (step : b.IdealStep w x p y) (whole : half ∣ p.event.time) : x.head.clock < Batch.lastBoost := by
  by_contra late
  have at_ : x.head.clock = Batch.lastBoost := le_antisymm meets.clock_le (not_lt.mp late)
  have on : b.mlfq = true := by simp [Batch.mlfq, policy]
  have tick : half = 5000 := rfl
  have clock := meets.same.clock
  obtain ⟨step, instant, i, own, traps, -⟩ := step
  have passed := Batch.step_view meets.coherent step
  have live := passed.live meets.coherent
  have view := passed.entered
  obtain ⟨before, -, entered, -, -⟩ := step
  rw [before, instant] at entered
  rw [own] at live view
  -- The boost is due, and its next deadline lies behind.
  have due : b.BoostDue p.readings x.head.loop := by
    refine ⟨on, ?_⟩
    rw [instant]
    exact (meets.same.boost_le meets.grid meets.bounded).trans at_.ge
  have behind : p.entry.boost ≤ x.head.clock := by
    rw [view.boost, if_pos due, instant, at_]
    exact Batch.nextBoost_wraps base
  have armed : p.entry.timecmp = x.head.clock + 1 := by
    have deadline := Batch.entered_deadline policy entered
    rw [deadline]
    unfold Batch.available
    dsimp only [Readings.instant]
    omega
  -- What else is due comes at a tick, so the trap is one behind the clock.
  have fits := meets.account.fits i
  have phase := fits.unended.mp ((meets.alive i).mp live)
  have left := fits.more (fun new => meets.awake i (.inl new)) phase
  have account := fits.left
  rw [armed, meets.used] at traps
  have soon := traps.earliest _ _ .timer
  have due' := traps.due
  generalize p.event.reason = reason at due'
  generalize p.event.time = time at due' whole soon
  cases due' with
  | finish =>
    rw [tick] at soon
    omega
  | yields bursts =>
    have inside := Nat.mod_lt (s.entries i).used (Nat.pos_of_ne_zero bursts)
    rw [Nat.mul_mod_mul_left, ← Nat.mul_sub, tick] at soon
    omega
  | timer =>
    rw [clock, tick] at whole
    omega

/-- A complete run of the kernel leads the simulator to its end. -/
theorem ideal_meets (policy : b.policy = .mlfq) (base : b.base = 0) (early : ∀ i, w.arrival i = 0)
    (proper : ∀ i, 0 < w.service i) (nowait : ∀ i, w.wait i = 0) (leads : w.Leads .mlfq 40 (w.start 40) t)
    (ran : b.Ideal w passes y)
    (room : ∀ x s p y, Meets b w x s → p ∈ passes → b.IdealStep w x p y → b.profile = .release →
      x.head.clock < Batch.lastBoost) :
    Meets b w y t ∧ Agrees b w passes y.head.loop.tasks (t.outcome w) := by
  obtain ⟨l, started, run, stops⟩ := ran
  obtain ⟨u, turns, there, trace, whole⟩ :=
    (start_meets base early proper started).run policy base nowait run room
  have ends : w.Leads .mlfq 40 (w.start 40).scan u := turns.ends (.stop (there.over stops))
  obtain ⟨i⟩ := b.someone
  have going : (w.start 40).scan.Going := by
    rw [Mlfq.start_scan early proper]
    exact ⟨i, rfl⟩
  rw [Mlfq.scan_trace] at trace
  cases leads.unique ((Mlfq.scan_leads going ⟨i, rfl⟩).mp ends)
  exact ⟨there, there.agrees (Mlfq.leads_returns leads).1 base early proper trace whole⟩

/-- The kernel completes where it can count, or has room. -/
theorem ideal_exists (policy : b.policy = .mlfq) (base : b.base = 0) (early : ∀ i, w.arrival i = 0)
    (proper : ∀ i, 0 < w.service i) (nowait : ∀ i, w.wait i = 0) (leads : w.Leads .mlfq 40 (w.start 40) t)
    (room : b.profile = .release → Room (∑ i, w.service i)) (few : b.profile = .dev → t.switches < 2 ^ 31) :
    ∃ passes y, b.Ideal w passes y := by
  have begins : b.base + 20 * T ≤ usizeMax := by
    rw [base]
    decide
  obtain ⟨l, started, -⟩ := Batch.start_spec begins
  have meets := start_meets base early proper started
  obtain ⟨i⟩ := b.someone
  have going : (w.start 40).scan.Going := by
    rw [Mlfq.start_scan early proper]
    exact ⟨i, rfl⟩
  obtain ⟨passes, y, run, stops⟩ :=
    meets.completes policy base nowait ((Mlfq.scan_leads going ⟨i, rfl⟩).mpr leads) room few
  exact ⟨passes, y, l, started, run, stops⟩

/-- Jobs that are all there at 0 and never wait. -/
structure Plain (jobs : Fin n → Mlfq.Job) : Prop extends Mlfq.Accepted jobs where
  early : ∀ i, (jobs i).arrival = 0
  some_ : ∀ i, 1 ≤ (jobs i).service
  nowait : ∀ i, (jobs i).wait = 0

theorem Plain.holds {jobs : Fin n → Mlfq.Job} {w : Mlfq.Workload n} (plain : Plain jobs)
    (holds : Mlfq.Holds w jobs) :
    (∀ i, w.arrival i = 0) ∧ (∀ i, 0 < w.service i) ∧ ∀ i, w.wait i = 0 := by
  refine ⟨fun i => ?_, fun i => ?_, fun i => ?_⟩
  · have same := holds.arrival i
    have zero := plain.early i
    omega
  · have same := holds.service i
    have some_ := plain.some_ i
    omega
  · have same := holds.wait i
    have zero := plain.nowait i
    omega

/-- A complete run of a build that checks agrees, and it has counted the dispatches. -/
theorem dev_ideal (checks : b.profile = .dev) (policy : b.policy = .mlfq) (base : b.base = 0)
    (early : ∀ i, w.arrival i = 0) (proper : ∀ i, 0 < w.service i) (nowait : ∀ i, w.wait i = 0)
    (leads : w.Leads .mlfq 40 (w.start 40) t) (ran : b.Ideal w passes y) :
    t.switches < 2 ^ 31 ∧ Agrees b w passes y.head.loop.tasks (t.outcome w) := by
  obtain ⟨meets, agrees⟩ := ideal_meets policy base early proper nowait leads ran
    (by simp [checks])
  exact ⟨meets.few checks, agrees⟩

/-- A complete run whose traps come at ticks had room. -/
theorem ideal_room (policy : b.policy = .mlfq) (base : b.base = 0)
    (early : ∀ i, w.arrival i = 0) (proper : ∀ i, 0 < w.service i) (nowait : ∀ i, w.wait i = 0)
    (ran : b.Ideal w passes y) (whole : ∀ p ∈ passes, half ∣ p.event.time) : Room (∑ i, w.service i) := by
  obtain ⟨t, leads, -⟩ := Mlfq.schedule_ends w .mlfq 40
  obtain ⟨meets, -⟩ := ideal_meets policy base early proper nowait leads ran
    fun _ _ p _ here member step _ => here.early policy base step (whole p member)
  have clock := meets.clock_le
  rwa [meets.same.clock, meets.total (Mlfq.leads_returns leads).1] at clock

/-- It agrees if there is room, and only then. -/
theorem ideal_agrees (policy : b.policy = .mlfq) (base : b.base = 0)
    (early : ∀ i, w.arrival i = 0) (proper : ∀ i, 0 < w.service i) (nowait : ∀ i, w.wait i = 0)
    (leads : w.Leads .mlfq 40 (w.start 40) t) (ran : b.Ideal w passes y) :
    Agrees b w passes y.head.loop.tasks (t.outcome w) ↔ Room (∑ i, w.service i) := by
  constructor
  · intro agrees
    exact ideal_room policy base early proper nowait ran fun p member => (agrees.whole p member).2
  · intro room
    exact (ideal_meets policy base early proper nowait leads ran
      fun _ _ _ _ here _ step _ => room.before here (here.taken (Batch.step_view here.coherent step.1).entered)).2

/-- **The kernel's MLFQ loop and the simulator make the same schedule.** For
every list of jobs that are all there at 0 and never wait, `simulate` returns a
report. The kernel in the ideal environment, built with overflow checks,
completes exactly when its counter of switches can count those of the report,
and every complete run agrees with the report: tick by tick, and in the
demotions and times of every task. Built without, it completes and agrees
exactly when the services end by the last boost deadline that fits a `usize`. -/
theorem same_schedule (b : Batch) (jobs : Fin b.specs.length → Mlfq.Job) (policy : b.policy = .mlfq)
    (base : b.base = 0) (plain : Plain jobs) :
    ∃ w r, Mlfq.Holds w jobs ∧ Mlfq.Simulates jobs .mlfq 40 r ∧
      (b.profile = .dev → ((∃ passes y, b.Ideal w passes y) ↔ r.switches < 2 ^ 31) ∧
        ∀ passes y, b.Ideal w passes y → Agrees b w passes y.head.loop.tasks r) ∧
      (b.profile = .release → (((∃ passes y, b.Ideal w passes y) ∧
        ∀ passes y, b.Ideal w passes y → Agrees b w passes y.head.loop.tasks r) ↔ Room (∑ i, w.service i))) := by
  obtain ⟨w, valid, holds⟩ := Mlfq.validate_accepts plain.toAccepted
  obtain ⟨t, leads, -⟩ := Mlfq.schedule_ends w .mlfq 40
  obtain ⟨early, proper, nowait⟩ := plain.holds holds
  refine ⟨w, t.outcome w, holds, Mlfq.Returns.simulate valid (by decide) (Mlfq.leads_returns leads).2,
    fun checks => ⟨⟨?_, fun few => ?_⟩, fun passes y ran => ?_⟩, fun release => ⟨?_, fun room => ⟨?_, ?_⟩⟩⟩
  · rintro ⟨passes, y, ran⟩
    exact (dev_ideal checks policy base early proper nowait leads ran).1
  · exact ideal_exists policy base early proper nowait leads (by simp [checks]) fun _ => few
  · exact (dev_ideal checks policy base early proper nowait leads ran).2
  · rintro ⟨⟨passes, y, ran⟩, agree⟩
    exact (ideal_agrees policy base early proper nowait leads ran).mp (agree passes y ran)
  · exact ideal_exists policy base early proper nowait leads (fun _ => room) (by simp [release])
  · exact fun passes y ran => (ideal_agrees policy base early proper nowait leads ran).mpr room

def unchecked : Batch := { rehearsal .mlfq with profile := .release }

/-- Two jobs, the second with a voluntary point after each tick. -/
def pair : Fin (rehearsal .mlfq).specs.length → Mlfq.Job :=
  ![⟨"A", 0, 7, 0, 0⟩, ⟨"B", 0, 3, 1, 0⟩]

theorem same_schedule_pair : (∃ w r, Mlfq.Holds w pair ∧ Mlfq.Simulates pair .mlfq 40 r ∧
      (∃ passes y, (rehearsal .mlfq).Ideal w passes y) ∧
      ∀ passes y, (rehearsal .mlfq).Ideal w passes y → Agrees (rehearsal .mlfq) w passes y.head.loop.tasks r) ∧
    ∃ w r, Mlfq.Holds w pair ∧ Mlfq.Simulates pair .mlfq 40 r ∧
      (∃ passes y, unchecked.Ideal w passes y) ∧
      ∀ passes y, unchecked.Ideal w passes y → Agrees unchecked w passes y.head.loop.tasks r := by
  have plain : Plain pair := ⟨⟨by decide, by decide⟩, by decide, by decide, by decide⟩
  constructor
  · obtain ⟨w, r, holds, simulates, dev, -⟩ := same_schedule (rehearsal .mlfq) pair rfl rfl plain
    have ran : ((Mlfq.simulate 20 pair .mlfq 40).bind Except.toOption).map (·.switches) = some 6 := by decide +kernel
    obtain ⟨report, ran, six⟩ := Option.map_eq_some_iff.mp ran
    obtain ⟨value, ran, made⟩ := Option.bind_eq_some_iff.mp ran
    obtain rfl := simulates.value ran
    obtain rfl : r = report := Option.some.inj made
    obtain ⟨completes, agree⟩ := dev rfl
    exact ⟨w, r, holds, simulates, completes.mpr (by omega), agree⟩
  · obtain ⟨w, r, holds, simulates, -, release⟩ := same_schedule unchecked pair rfl rfl plain
    have room : Room (∑ i, w.service i) := by
      have first : (w.service ⟨0, by decide⟩ : Int) = 7 := holds.service _
      have second : (w.service ⟨1, by decide⟩ : Int) = 3 := holds.service _
      have total : ∑ i, w.service i = w.service ⟨0, by decide⟩ + w.service ⟨1, by decide⟩ := Fin.sum_univ_two _
      have ten : ∑ i, w.service i = 10 := by omega
      rw [ten]
      decide
    obtain ⟨completes, agree⟩ := (release rfl).mpr room
    exact ⟨w, r, holds, simulates, completes, agree⟩

/-- One task alone. -/
def alone (profile : Profile) : Batch :=
  { rehearsal .mlfq with profile, specs := [Spec.new 1 10], nonempty := by simp, fits := by decide }

/-- A service of 2 * 10 ^ 19 platform ticks, which no `usize` holds. -/
def endless : Fin 1 → Mlfq.Job := fun _ => ⟨"A", 0, 4000000000000000, 0, 0⟩

/-- There the simulator returns a schedule, and the kernel has no complete run
that agrees with one, whichever way it is built. -/
theorem endless_stops : (∃ r, Mlfq.Simulates endless .mlfq 40 r) ∧ ∀ profile w r, Mlfq.Holds w endless →
    ¬ ∃ passes y, (alone profile).Ideal w passes y ∧ Agrees (alone profile) w passes y.head.loop.tasks r := by
  have plain : Plain endless := ⟨⟨by decide, by decide⟩, by decide, by decide, by decide⟩
  constructor
  · obtain ⟨w, valid, -⟩ := Mlfq.validate_accepts plain.toAccepted
    obtain ⟨t, leads, -⟩ := Mlfq.schedule_ends w .mlfq 40
    exact ⟨_, Mlfq.Returns.simulate valid (by decide) (Mlfq.leads_returns leads).2⟩
  · rintro profile (w : Mlfq.Workload (alone profile).specs.length) r holds ⟨passes, y, ran, agrees⟩
    obtain ⟨early, proper, nowait⟩ := plain.holds holds
    have service (i : Fin (alone profile).specs.length) : w.service i = 4000000000000000 := by
      have same : (w.service i : Int) = 4000000000000000 := holds.service i
      exact_mod_cast same
    have total : ∑ i, w.service i = 4000000000000000 := by
      rw [Finset.sum_congr rfl fun i _ => service i]
      rfl
    cases profile with
    | dev =>
      obtain ⟨t, leads, -⟩ := Mlfq.schedule_ends w .mlfq 40
      obtain ⟨meets, -⟩ := ideal_meets (b := alone .dev) rfl rfl early proper nowait leads ran (by simp [alone])
      have end_ := (meets.total (Mlfq.leads_returns leads).1).trans total
      have few := meets.few rfl
      have paced := meets.paced
      omega
    | release =>
      have room := ideal_room (b := alone .release) rfl rfl early proper nowait ran
        fun p member => (agrees.whole p member).2
      rw [total] at room
      exact absurd room (by decide)

end Neonos.Scheduler
