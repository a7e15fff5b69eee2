import Neonos.MlfqTrace

/-! The levels of the MLFQ simulator: what a job's level is depends on the ticks
it has had since the last multiple of the boost period and on nothing else. -/
namespace Neonos.Mlfq
open StableChoice WhileLoop

variable {w : Workload n} {policy : Policy} {period : Nat} {s t : State n} {i j : Fin n} {e : Entry} {x y : Tick (Fin n)}

/-! ### The closed form -/

/-- The level of a job that has had `c` ticks in the current window. -/
def rung (c : Nat) : Fin 3 := if c < 4 then 0 else if c < 12 then 1 else 2

/-- The ticks of the same job before `x`, in the window of `x`. -/
def spent [DecidableEq ι] (period : Nat) (trace : List (Tick ι)) (x : Tick ι) : Nat :=
  (trace.filter fun y => y.job = x.job ∧ x.time / period * period ≤ y.time ∧ y.time < x.time).length

/-- The ticks of the same job up to `x` and with it. -/
def upto [DecidableEq ι] (trace : List (Tick ι)) (x : Tick ι) : Nat :=
  (trace.filter fun y => y.job = x.job ∧ y.time ≤ x.time).length

/-- The tick uses up an allotment of a job that is not over with it. -/
def Steps [DecidableEq ι] (service : ι → Nat) (period : Nat) (trace : List (Tick ι)) (x : Tick ι) : Prop :=
  (spent period trace x + 1 = 4 ∨ spent period trace x + 1 = 12) ∧ upto trace x < service x.job

instance [DecidableEq ι] (service : ι → Nat) (period : Nat) (trace : List (Tick ι)) (x : Tick ι) :
    Decidable (Steps service period trace x) := inferInstanceAs (Decidable (_ ∧ _))

def Event.isDemote : Event ι → Bool
  | .demote _ _ => true
  | .boost _ => false

/-- The demotion that follows a tick. -/
def Tick.demotion (x : Tick ι) : Event ι := .demote (x.time + 1) x.job

theorem spent_snoc [DecidableEq ι] (period : Nat) (trace : List (Tick ι)) {x y : Tick ι} (later : x.time ≤ y.time) :
    spent period (trace ++ [y]) x = spent period trace x := by
  unfold spent
  rw [List.filter_append, List.filter_cons_of_neg, List.filter_nil, List.append_nil]
  simp only [decide_eq_true_eq, not_and, not_lt]
  exact fun _ _ => later

theorem upto_snoc [DecidableEq ι] (trace : List (Tick ι)) {x y : Tick ι} (later : x.time < y.time) :
    upto (trace ++ [y]) x = upto trace x := by
  unfold upto
  rw [List.filter_append, List.filter_cons_of_neg, List.filter_nil, List.append_nil]
  simp only [decide_eq_true_eq, not_and, not_le]
  exact fun _ => later

theorem steps_snoc [DecidableEq ι] (service : ι → Nat) (period : Nat) (trace : List (Tick ι)) {x y : Tick ι}
    (later : x.time < y.time) : Steps service period (trace ++ [y]) x ↔ Steps service period trace x := by
  unfold Steps
  rw [spent_snoc period trace later.le, upto_snoc trace later]

/-- The ticks since a time, of those a job has had. -/
def since (base : Nat) (ticks : List Nat) : Nat := (ticks.filter fun x => base ≤ x).length

theorem since_snoc (base : Nat) (ticks : List Nat) (early : base ≤ now) :
    since base (ticks ++ [now]) = since base ticks + 1 := by
  unfold since
  rw [List.filter_append, List.length_append, List.filter_cons_of_pos (by simpa using early)]
  rfl

theorem since_none (before : ∀ x ∈ ticks, x < base) : since base ticks = 0 := by
  unfold since
  rw [List.length_eq_zero_iff, List.filter_eq_nil_iff]
  intro x member
  simpa using before x member

/-- A tick after all others counts the ticks of its job since its window began. -/
theorem spent_last (period : Nat) {trace : List (Tick (Fin n))} (past : ∀ y ∈ trace, y.time < x.time) :
    spent period (trace ++ [x]) x = since (x.time / period * period) (times trace x.job) := by
  rw [spent_snoc period trace le_rfl]
  unfold spent since times
  rw [List.filter_map, List.length_map, List.filter_filter]
  apply congrArg List.length
  apply List.filter_congr
  intro y member
  have early := past y member
  simp [early, Bool.and_comm]

theorem upto_last {trace : List (Tick (Fin n))} (past : ∀ y ∈ trace, y.time < x.time) :
    upto (trace ++ [x]) x = (times trace x.job).length + 1 := by
  unfold upto times
  rw [List.filter_append, List.length_append, List.length_map]
  have own : ([x].filter fun y => y.job = x.job ∧ y.time ≤ x.time).length = 1 := by simp
  rw [own]
  congr 2
  apply List.filter_congr
  intro y member
  simp [(past y member).le]

/-! ### The counters -/

/-- The counters of an entry that has had `c` ticks since the last boost. -/
structure Rung (c : Nat) (e : Entry) : Prop where
  level : e.level = rung c
  top : c < 4 → e.allot = 4 - c
  middle : 4 ≤ c → c < 12 → e.allot = 12 - c

theorem rung_succ (apart : ¬ (c + 1 = 4 ∨ c + 1 = 12)) : rung (c + 1) = rung c := by
  unfold rung
  by_cases low : c < 4
  · rw [if_pos low, if_pos (by omega)]
  · rw [if_neg low, if_neg (by omega)]
    by_cases mid : c < 12
    · rw [if_pos mid, if_pos (by omega)]
    · rw [if_neg mid, if_neg (by omega)]

theorem Rung.demotes (rung : Rung c e) (more : e.charge.left ≠ 0) :
    e.charge.Demotes .mlfq ↔ c + 1 = 4 ∨ c + 1 = 12 := by
  obtain ⟨level, top, middle⟩ := rung
  unfold Entry.Demotes
  have same : e.charge.level = e.level := rfl
  rw [same, level]
  unfold Mlfq.rung at level ⊢
  by_cases low : c < 4
  · have allot := top low
    rw [if_pos low] at level ⊢
    have charged : e.charge.allot = e.allot - 1 := if_pos (by rw [level]; decide)
    rw [charged, allot]
    constructor
    · intro ⟨_, _, _, spent⟩
      omega
    · intro either
      exact ⟨more, rfl, by decide, by omega⟩
  · by_cases mid : c < 12
    · have allot := middle (not_lt.mp low) mid
      rw [if_neg low, if_pos mid] at level ⊢
      have charged : e.charge.allot = e.allot - 1 := if_pos (by rw [level]; decide)
      rw [charged, allot]
      constructor
      · intro ⟨_, _, _, spent⟩
        omega
      · intro either
        exact ⟨more, rfl, by decide, by omega⟩
    · rw [if_neg low, if_neg mid]
      constructor
      · intro ⟨_, _, bottom, _⟩
        exact absurd bottom (by decide)
      · intro either
        omega

theorem Rung.charged (rung : Rung c e) (more : e.charge.left ≠ 0) : Rung (c + 1) (e.charge.renew .mlfq) := by
  have demotes := rung.demotes more
  obtain ⟨level, top, middle⟩ := rung
  by_cases down : e.charge.Demotes .mlfq
  · have renewed : (e.charge.renew .mlfq).level = e.level + 1 ∧
        (e.charge.renew .mlfq).allot = allots (e.level + 1) := by
      unfold Entry.renew
      rw [if_pos down]
      exact ⟨rfl, rfl⟩
    rcases demotes.mp down with four | twelve
    · obtain rfl : c = 3 := by omega
      rw [level] at renewed
      exact ⟨renewed.1, fun low => absurd low (by decide), fun _ _ => renewed.2⟩
    · obtain rfl : c = 11 := by omega
      rw [level] at renewed
      exact ⟨renewed.1, fun low => absurd low (by decide), fun _ low => absurd low (by decide)⟩
  · have renewed : (e.charge.renew .mlfq).level = e.level ∧ (e.charge.renew .mlfq).allot = e.charge.allot := by
      unfold Entry.renew
      rw [if_neg down]
      split <;> exact ⟨rfl, rfl⟩
    have apart : ¬ (c + 1 = 4 ∨ c + 1 = 12) := fun either => down (demotes.mpr either)
    have charged : e.level ≠ 2 → e.charge.allot = e.allot - 1 := fun upper => if_pos upper
    refine ⟨?_, fun low => ?_, fun high low => ?_⟩
    · rw [renewed.1, level, rung_succ apart]
    · have upper : e.level ≠ 2 := by
        rw [level, Mlfq.rung, if_pos (by omega)]
        decide
      rw [renewed.2, charged upper, top (by omega)]
      omega
    · have high' : 4 ≤ c := by omega
      have low' : c < 12 := by omega
      have upper : e.level ≠ 2 := by
        rw [level, Mlfq.rung, if_neg (not_lt.mpr high'), if_pos low']
        decide
      rw [renewed.2, charged upper, middle high' low']
      omega

/-! ### The whole state -/

/-- The levels, counters and demotions of a state under MLFQ, given by its trace. -/
structure Windowed (w : Workload n) (period : Nat) (s : State n) : Prop where
  aligned : ∃ f, s.nextBoost = (f + 1) * period ∧ f * period ≤ s.now
  before : ∀ x ∈ s.trace, x.time < s.nextBoost
  rungs : ∀ i, (s.entries i).done = none → Rung (since (s.nextBoost - period) (times s.trace i)) (s.entries i)
  levels : ∀ x ∈ s.trace, x.level = rung (spent period s.trace x)
  demotes : s.events.filter Event.isDemote = (s.trace.filter fun x => Steps w.service period s.trace x).map Tick.demotion

theorem start_windowed (w : Workload n) (period : Nat) : Windowed w period (w.start period) := by
  refine ⟨⟨0, ?_, ?_⟩, nofun, fun i _ => ⟨rfl, fun _ => rfl, fun high => ?_⟩, nofun, rfl⟩
  · change period = _
    omega
  · change 0 * period ≤ 0
    omega
  · exact absurd high (by change ¬ 4 ≤ 0; omega)

/-- What leaves the trace, the events and the counters of unfinished jobs alone. -/
theorem Windowed.frame (windowed : Windowed w period s) (trace : t.trace = s.trace) (events : t.events = s.events)
    (nextBoost : t.nextBoost = s.nextBoost) (later : s.now ≤ t.now)
    (entries : ∀ i, (t.entries i).done = none → (s.entries i).done = none ∧
      (t.entries i).level = (s.entries i).level ∧ (t.entries i).allot = (s.entries i).allot) :
    Windowed w period t := by
  obtain ⟨⟨f, aligned, begun⟩, before, rungs, levels, demotes⟩ := windowed
  refine ⟨⟨f, nextBoost.trans aligned, begun.trans later⟩, ?_, fun i undone => ?_, ?_, ?_⟩
  · rw [trace, nextBoost]
    exact before
  · obtain ⟨undone', level, allot⟩ := entries i undone
    obtain ⟨at', top, middle⟩ := rungs i undone'
    rw [trace, nextBoost]
    exact ⟨level.trans at', fun low => allot.trans (top low), fun high low => allot.trans (middle high low)⟩
  · rw [trace]
    exact levels
  · rw [trace, events]
    exact demotes

theorem Windowed.scan (windowed : Windowed w period s) : Windowed w period s.scan := by
  apply windowed.frame (scan_trace s) (scan_events s) (scan_nextBoost s) (scan_now s).ge
  intro i undone
  rw [scan_entries] at undone ⊢
  unfold woken at undone ⊢
  split at undone
  · rename_i due
    rw [if_pos due]
    split at undone
    · cases undone
    · rename_i some
      rw [if_neg some]
      exact ⟨undone, rfl, rfl⟩
  · rename_i early
    rw [if_neg early]
    exact ⟨undone, rfl, rfl⟩

theorem Windowed.dispatch (windowed : Windowed w period s) (policy : Policy) :
    Windowed w period (s.dispatch policy) := by
  rcases dispatch_cases s policy with ⟨i, -, -, same⟩ | ⟨-, same⟩
  · rw [same]
    refine windowed.frame rfl rfl rfl le_rfl fun j undone => ?_
    by_cases own : j = i
    · subst own
      simpa [Entry.taken] using undone
    · simpa [own] using undone
  · rw [same]
    exact windowed

theorem Windowed.giveUp (windowed : Windowed w period s) (i : Fin n) : Windowed w period (s.giveUp i) := by
  rcases giveUp_cases s i with ⟨-, same⟩ | ⟨-, same⟩
  · rw [same]
    refine windowed.frame rfl rfl rfl le_rfl fun j undone => ?_
    by_cases own : j = i
    · subst own
      simpa using undone
    · simpa [own] using undone
  · rw [same]
    exact windowed.frame rfl rfl rfl le_rfl fun j undone => ⟨undone, rfl, rfl⟩

theorem Windowed.idle (windowed : Windowed w period s) (kept : Kept w s) : Windowed w period s.idle := by
  rcases idle_cases s with ⟨i, sleeps, -, same⟩ | ⟨-, same⟩
  · rw [same]
    exact windowed.frame rfl rfl rfl (kept.early i sleeps) fun j undone => ⟨undone, rfl, rfl⟩
  · rw [same]
    exact windowed

/-- After the boost the window is the one that the time is in. -/
theorem Windowed.boost (windowed : Windowed w period s) (positive : 0 < period) (kept : Kept w s) :
    Windowed w period (s.boost .mlfq period) ∧
      (s.boost .mlfq period).nextBoost = (s.now / period + 1) * period := by
  obtain ⟨⟨f, aligned, begun⟩, before, rungs, levels, demotes⟩ := windowed
  have ahead : s.now < (s.now / period + 1) * period := by
    rw [Nat.mul_comm]
    exact Nat.lt_mul_div_succ s.now positive
  unfold State.boost
  split
  · rename_i due
    have reached : s.nextBoost ≤ s.now / period * period := by
      rw [aligned]
      apply Nat.mul_le_mul_right
      rw [Nat.le_div_iff_mul_le positive, ← aligned]
      exact due.2
    have base : (s.now / period + 1) * period - period = s.now / period * period := by
      rw [Nat.add_mul, Nat.one_mul, Nat.add_sub_cancel]
    refine ⟨⟨⟨s.now / period, rfl, Nat.div_mul_le_self s.now period⟩, ?_, fun i undone => ?_, levels, ?_⟩, rfl⟩
    · exact fun x member => (kept.past x member).trans ahead
    · dsimp only at undone ⊢
      have fresh : (s.entries i).done = none := by
        by_contra stopped
        rw [if_neg stopped] at undone
        exact stopped undone
      rw [if_pos fresh, base, since_none]
      · exact ⟨rfl, fun _ => rfl, fun high => absurd high (by decide)⟩
      · intro x member
        obtain ⟨y, inside, -, rfl⟩ := mem_times.mp member
        exact (before y inside).trans_le reached
    · rw [List.filter_append, demotes]
      exact List.append_nil _
  · rename_i early
    have early : s.now < s.nextBoost := by
      by_contra due
      exact early ⟨rfl, not_lt.mp due⟩
    have same : s.now / period = f := by
      apply Nat.div_eq_of_lt_le begun
      rw [← aligned]
      exact early
    exact ⟨⟨⟨f, aligned, begun⟩, before, rungs, levels, demotes⟩, by rw [aligned, same]⟩

/-! ### A tick -/

theorem leave_counters (w : Workload n) (i : Fin n) (now : Nat) (e : Entry) :
    (w.leave i now e).level = e.level ∧ (w.leave i now e).allot = e.allot := by
  rcases leave_cases w i now e with ⟨-, same⟩ | ⟨-, -, same⟩ | ⟨-, same⟩ <;> rw [same] <;> exact ⟨rfl, rfl⟩

/-- A tick after the boost has the level of its window. -/
theorem Windowed.charged (windowed : Windowed w period s) (positive : 0 < period) (kept : Kept w s)
    (current : s.nextBoost = (s.now / period + 1) * period) (running : (s.entries i).phase = .running) :
    Windowed w period (w.charged .mlfq s i) := by
  obtain ⟨aligned, before, rungs, levels, demotes⟩ := windowed
  have base : s.nextBoost - period = s.now / period * period := by
    rw [current, Nat.add_mul, Nat.one_mul, Nat.add_sub_cancel]
  have early : s.now / period * period ≤ s.now := Nat.div_mul_le_self s.now period
  have ahead : s.now < s.nextBoost := by
    rw [current, Nat.mul_comm]
    exact Nat.lt_mul_div_succ s.now positive
  have fits := kept.fits i
  have notDone : (s.entries i).phase ≠ .done := by simp [running]
  have undone := fits.unended.mpr notDone
  have mine := rungs i undone
  rw [base] at mine
  let tick : Tick (Fin n) := ⟨s.now, i, (s.entries i).level⟩
  have trace : (w.charged .mlfq s i).trace = s.trace ++ [tick] := rfl
  have count : spent period (s.trace ++ [tick]) tick = since (s.now / period * period) (times s.trace i) :=
    spent_last period kept.past
  refine ⟨?_, ?_, fun j undone' => ?_, ?_, ?_⟩
  · obtain ⟨f, aligned, begun⟩ := aligned
    exact ⟨f, aligned, begun.trans (Nat.le_succ s.now)⟩
  · intro x member
    rcases List.mem_append.mp member with old | new
    · exact before x old
    · rw [List.mem_singleton.mp new]
      exact ahead
  · change Rung (since (s.nextBoost - period) (times (w.charged .mlfq s i).trace j)) _
    rw [charged_times, base]
    by_cases own : j = i
    · subst own
      rw [charged_mine] at undone' ⊢
      have more : (s.entries j).charge.left ≠ 0 := by
        intro none
        obtain ⟨level, slice, allot, renewed⟩ := renew_eq .mlfq (s.entries j)
        rcases leave_cases w j (s.now + 1) ((s.entries j).charge.renew .mlfq) with ⟨-, same⟩ | ⟨some, -⟩ | ⟨some, -⟩
        · rw [same] at undone'
          cases undone'
        · rw [renewed] at some
          exact some none
        · rw [renewed] at some
          exact some none
      rw [if_pos rfl, since_snoc _ _ early]
      obtain ⟨level, top, middle⟩ := mine.charged more
      obtain ⟨level', allot'⟩ := leave_counters w j (s.now + 1) ((s.entries j).charge.renew .mlfq)
      exact ⟨level'.trans level, fun low => allot'.trans (top low), fun high low => allot'.trans (middle high low)⟩
    · rw [charged_others own] at undone' ⊢
      rw [if_neg own, List.append_nil, ← base]
      exact rungs j undone'
  · intro x member
    rw [trace] at member ⊢
    rcases List.mem_append.mp member with old | new
    · rw [spent_snoc period s.trace (kept.past x old).le]
      exact levels x old
    · rw [List.mem_singleton.mp new, count]
      exact mine.level
  · have earlier : (s.trace.filter fun x => Steps w.service period (s.trace ++ [tick]) x) =
        s.trace.filter fun x => Steps w.service period s.trace x := by
      apply List.filter_congr
      intro x member
      rw [decide_eq_decide]
      exact steps_snoc w.service period s.trace (kept.past x member)
    have whole : upto (s.trace ++ [tick]) tick = (times s.trace i).length + 1 := upto_last kept.past
    have account := fits.left
    have used := fits.used
    have some := fits.more (by simp [running]) notDone
    have left : (s.entries i).charge.left = (s.entries i).left - 1 := rfl
    have steps : Steps w.service period (s.trace ++ [tick]) tick ↔ (s.entries i).charge.Demotes .mlfq := by
      unfold Steps
      rw [count, whole]
      change _ ∧ (times s.trace i).length + 1 < w.service i ↔ _
      constructor
      · intro ⟨either, unfinished⟩
        exact (mine.demotes (by omega)).mpr either
      · intro down
        have more := down.1
        exact ⟨(mine.demotes more).mp down, by omega⟩
    have event : (if (s.entries i).charge.Demotes .mlfq then [Event.demote (s.now + 1) i] else []) =
        ([tick].filter fun x => Steps w.service period (s.trace ++ [tick]) x).map Tick.demotion := by
      simp only [List.filter_cons, List.filter_nil, decide_eq_true_eq, steps]
      split <;> rfl
    rw [trace, List.filter_append, earlier, List.map_append, ← demotes, ← event]
    change (s.events ++ _).filter Event.isDemote = _
    rw [List.filter_append]
    congr 1
    split <;> rfl

/-! ### Runs -/

theorem AtHead.windowed (head : AtHead w s) (windowed : Windowed w period s) (positive : 0 < period)
    (next : w.pass .mlfq period s = .ok t) : Windowed w period t := by
  obtain ⟨boosted, current⟩ := windowed.scan.boost positive head.toKept.scan.1
  have poised : Windowed w period (s.poised .mlfq period) := boosted.dispatch .mlfq
  have same : (s.poised .mlfq period).nextBoost = ((s.poised .mlfq period).now / period + 1) * period := by
    obtain ⟨now, nextBoost⟩ := poised_clock s .mlfq period
    rw [now, nextBoost]
    rw [scan_now] at current
    exact current
  obtain ⟨a, rfl, head', settled, ⟨free, nobody, moved⟩ | ⟨i, mine, running, ticked⟩⟩ := head.cases .mlfq period
  · cases moved.symm.trans next
    exact poised.idle head'.toKept
  · cases ticked.symm.trans next
    have charged := (poised.charged positive head'.toKept same running).scan
    rcases tick_cases w .mlfq (s.poised .mlfq period) i with stopped | ⟨on, -⟩
    · rw [stopped]
      exact charged.giveUp i
    · rw [on]
      exact charged

theorem schedule_windowed (positive : 0 < period) (leads : w.Leads .mlfq period (w.start period) t) :
    Windowed w period t := by
  have keeps (s : State n) (both : AtHead w s ∧ Windowed w period s) (_ : s.Going) :
      ∃ m, w.pass .mlfq period s = .ok m ∧ AtHead w m ∧ Windowed w period m := by
    obtain ⟨m, next, head⟩ := both.1.pass .mlfq period
    exact ⟨m, next, head, both.1.windowed both.2 positive next⟩
  obtain ⟨t', same, ⟨-, windowed⟩, -⟩ := leads.invariant keeps ⟨start_head w period, start_windowed w period⟩
  cases same
  exact windowed

/-- A tick of a report uses up an allotment of a job that is not over with it. -/
def Report.Steps (w : Workload n) (period : Nat) (r : Report n) (x : Tick String) : Prop :=
  (spent period r.trace x + 1 = 4 ∨ spent period r.trace x + 1 = 12) ∧
    ∃ i, w.name i = x.job ∧ upto r.trace x < w.service i

instance (w : Workload n) (period : Nat) (r : Report n) (x : Tick String) : Decidable (r.Steps w period x) :=
  inferInstanceAs (Decidable (_ ∧ ∃ _, _))

/-- The levels and demotions of a report as its trace gives them. -/
structure Laddered (w : Workload n) (period : Nat) (r : Report n) : Prop where
  levels : ∀ x ∈ r.trace, x.level = rung (spent period r.trace x)
  demotes : r.events.filter Event.isDemote = (r.trace.filter fun x => r.Steps w period x).map Tick.demotion

theorem spent_label (w : Workload n) (period : Nat) (trace : List (Tick (Fin n))) (x : Tick (Fin n)) :
    spent period (trace.map w.label) (w.label x) = spent period trace x := by
  unfold spent
  rw [List.filter_map, List.length_map]
  congr 2
  funext y
  simp [Workload.label, w.distinct.eq_iff]

theorem upto_label (w : Workload n) (trace : List (Tick (Fin n))) (x : Tick (Fin n)) :
    upto (trace.map w.label) (w.label x) = upto trace x := by
  unfold upto
  rw [List.filter_map, List.length_map]
  congr 2
  funext y
  simp [Workload.label, w.distinct.eq_iff]

theorem Windowed.report (windowed : Windowed w period t) : Laddered w period (t.outcome w) := by
  have trace : (t.outcome w).trace = t.trace.map w.label := rfl
  have steps (x : Tick (Fin n)) : (t.outcome w).Steps w period (w.label x) ↔ Steps w.service period t.trace x := by
    unfold Report.Steps Steps
    rw [trace, spent_label, upto_label]
    apply and_congr_right
    intro _
    constructor
    · rintro ⟨i, named, unfinished⟩
      cases w.distinct named
      exact unfinished
    · exact fun unfinished => ⟨x.job, rfl, unfinished⟩
  refine ⟨?_, ?_⟩
  · intro x member
    rw [trace] at member ⊢
    obtain ⟨y, inside, rfl⟩ := List.mem_map.mp member
    rw [spent_label]
    exact windowed.levels y inside
  · have events : (t.outcome w).events.filter Event.isDemote = (t.events.filter Event.isDemote).map w.labelEvent := by
      change (t.events.map w.labelEvent).filter Event.isDemote = _
      rw [List.filter_map]
      congr 2
      funext event
      cases event <;> rfl
    rw [events, windowed.demotes, trace, List.filter_map, List.map_map, List.map_map]
    have same : (t.trace.filter ((fun x => decide ((t.outcome w).Steps w period x)) ∘ w.label)) =
        t.trace.filter fun x => Steps w.service period t.trace x := by
      apply List.filter_congr
      intro x _
      exact decide_eq_decide.mpr (steps x)
    rw [same]
    rfl

/-- **Boost windows.** For every workload it accepts and every positive boost
period, the level of each tick under MLFQ is a function of the ticks that its
job has had in the boost window, and the demotions are the ticks that use up
the allotment of a level. -/
theorem boost_windows (jobs : Fin n → Job) (period : Nat) (accepted : Accepted jobs) (positive : 0 < period) :
    ∃ w r, Holds w jobs ∧ Simulates jobs .mlfq period r ∧ Laddered w period r := by
  obtain ⟨w, valid, holds⟩ := validate_accepts accepted
  obtain ⟨t, leads, -⟩ := schedule_ends w .mlfq period
  obtain ⟨-, returns⟩ := leads_returns leads
  exact ⟨w, _, holds, Returns.simulate valid positive returns, (schedule_windowed positive leads).report⟩

theorem boost_windows_course : ∃ w r, Holds w course ∧ Simulates course .mlfq 40 r ∧ Laddered w 40 r :=
  boost_windows course 40 course_accepted (by decide)

end Neonos.Mlfq
