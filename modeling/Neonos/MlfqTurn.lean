import Neonos.MlfqHistory
import Neonos.MlfqPast

/-! A whole turn of the MLFQ simulator at once. A job that has been given the
processor keeps it up to the first tick after which its work, its burst, its
budget or the boost period is over, and nothing else happens meanwhile. -/
namespace Neonos.Mlfq
open StableChoice WhileLoop

variable {w : Workload n} {period : Nat} {s t : State n} {i : Fin n} {e : Entry} {k m : Nat}

/-! ### Ticks without a renewal -/

/-- The counters after `k` ticks. -/
def Entry.spent (e : Entry) (k : Nat) : Entry :=
  { e with
    left := e.left - k
    used := e.used + k
    slice := e.slice - k
    allot := if e.level ≠ 2 then e.allot - k else e.allot }

theorem charge_spent (e : Entry) : e.charge = e.spent 1 := rfl

theorem spent_spent (e : Entry) (m k : Nat) : (e.spent m).spent k = e.spent (m + k) := by
  unfold Entry.spent
  congr 1
  · exact Nat.sub_sub e.left m k
  · simp only [Nat.cast_add]
    omega
  · simp only [Nat.cast_add]
    split
    · omega
    · rfl
  · exact Nat.add_assoc e.used m k

/-- Something is over for the current job after `k` ticks. -/
def Halts (w : Workload n) (s : State n) (i : Fin n) (k : Nat) : Prop :=
  ((s.entries i).spent k).left = 0 ∨ w.Voluntary i ((s.entries i).spent k) ∨
    ((s.entries i).spent k).Expired .mlfq ∨ s.nextBoost ≤ s.now + k

/-- The turn of the current job has `k` ticks. -/
structure Lasts (w : Workload n) (s : State n) (i : Fin n) (k : Nat) : Prop where
  positive : 0 < k
  halts : Halts w s i k
  goes : ∀ m, 0 < m → m < k → ¬ Halts w s i m

/-- Nobody waits for its time. -/
def Awake (s : State n) : Prop := ∀ i, ¬ (s.entries i).Sleeps

/-- Nobody who is ready goes before the current job. -/
def Foremost (s : State n) (i : Fin n) : Prop := ∀ j ∈ s.ready, ¬ (s.entries j).level < (s.entries i).level

/-- A tick inside a turn. -/
def State.inside (s : State n) (i : Fin n) : State n :=
  { s with
    entries := Function.update s.entries i (s.entries i).charge
    trace := s.trace ++ [⟨s.now, i, (s.entries i).level⟩]
    now := s.now + 1 }

/-- The entry of a job whose turn ended at `now`, on its spent counters. -/
def Entry.stopped (e : Entry) (now : Nat) : Entry :=
  if e.left = 0 then { e.renew .mlfq with done := some now, phase := .done }
  else { e.renew .mlfq with phase := .ready, readyAt := now }

/-- The state after a turn of `k` ticks. -/
def State.turned (s : State n) (i : Fin n) (k : Nat) : State n :=
  { s with
    entries := Function.update s.entries i (((s.entries i).spent k).stopped (s.now + k))
    ready := s.ready ++ if ((s.entries i).spent k).left = 0 then [] else [i]
    events := s.events ++ if ((s.entries i).spent k).Demotes .mlfq then [.demote (s.now + k) i] else []
    trace := s.trace ++ (List.range k).map fun m => ⟨s.now + m, i, (s.entries i).level⟩
    now := s.now + k
    current := none }

@[simp] theorem inside_mine (s : State n) (i : Fin n) : (s.inside i).entries i = (s.entries i).spent 1 :=
  Function.update_self ..

@[simp] theorem inside_level (s : State n) (i j : Fin n) :
    ((s.inside i).entries j).level = (s.entries j).level := by
  have same : (s.entries i).charge.level = (s.entries i).level := rfl
  exact update_kept Entry.level same j

theorem inside_halts (s : State n) (i : Fin n) (m : Nat) : Halts w (s.inside i) i m ↔ Halts w s i (1 + m) := by
  unfold Halts
  rw [inside_mine, spent_spent]
  have clock : (s.inside i).now + m = s.now + (1 + m) := Nat.add_assoc s.now 1 m
  rw [clock]
  rfl

theorem inside_turned (s : State n) (i : Fin n) (k : Nat) : (s.inside i).turned i k = s.turned i (1 + k) := by
  unfold State.turned
  simp only [inside_mine, spent_spent]
  have clock : (s.inside i).now + k = s.now + (1 + k) := Nat.add_assoc s.now 1 k
  have ticks : ((List.range (1 + k)).map fun m => (⟨s.now + m, i, (s.entries i).level⟩ : Tick (Fin n))) =
      ⟨s.now, i, (s.entries i).level⟩ ::
        (List.range k).map fun m => ⟨s.now + 1 + m, i, (s.entries i).level⟩ := by
    rw [Nat.add_comm, List.range_succ_eq_map, List.map_cons, List.map_map]
    congr 1
    apply List.map_congr_left
    intro m _
    simp only [Function.comp_apply, Tick.mk.injEq, and_true]
    omega
  rw [clock, ticks]
  simp [State.inside, Entry.spent]

/-! ### The dispatch -/

theorem dispatch_chosen (free : s.current = none) (chosen : s.choose policy = some i) :
    s.dispatch policy = { s with
      entries := Function.update s.entries i ((s.entries i).taken s.now)
      ready := s.ready.erase i
      current := some i
      switches := s.switches + 1 } := by
  unfold State.dispatch
  rw [free, chosen]
  rfl

theorem Awake.poised_eq (awake : Awake s) (policy : Policy) (period : Nat) :
    s.poised policy period = (s.boost policy period).dispatch policy := by
  unfold State.poised
  rw [scan_settled fun i sleeps => absurd sleeps (awake i)]

theorem Awake.poised (awake : Awake s) (policy : Policy) (period : Nat) : Awake (s.poised policy period) :=
  fun i sleeps => awake i (poised_sleeps sleeps).1

/-- The counters of a job only change with its ticks. -/
theorem AtHead.poised_used (head : AtHead w s) (policy : Policy) (period : Nat) (i : Fin n) :
    ((s.poised policy period).entries i).used = (s.entries i).used := by
  rw [((head.poised policy period).1.fits i).used, (head.fits i).used, (poised_now s policy period).2]

/-- Whoever is chosen under MLFQ goes before all who stay. -/
theorem chosen_foremost (free : s.current = none) (chosen : s.choose .mlfq = some i) :
    Foremost (s.dispatch .mlfq) i := by
  have taken : Takes (fun i => (s.entries i).level) s.ready i (s.ready.erase i) := least_takes chosen
  rw [dispatch_chosen free chosen]
  intro j waits
  have level (j : Fin n) : (Function.update s.entries i ((s.entries i).taken s.now) j).level =
      (s.entries j).level := by
    have same : ((s.entries i).taken s.now).level = (s.entries i).level := rfl
    exact update_kept Entry.level same j
  dsimp only
  rw [level, level]
  exact not_lt.mpr (taken.least (List.mem_of_mem_erase waits))

/-! ### The length of a turn -/

/-- The next multiple of a burst is the first one. -/
theorem first_multiple (used : Nat) (some_ : 0 < m) (near : m ≤ burst - used % burst) :
    (used + m) % burst = 0 ↔ m = burst - used % burst := by
  have split : used + m = burst * (used / burst) + (used % burst + m) := by
    rw [← Nat.add_assoc, Nat.div_add_mod]
  rw [split, Nat.mul_add_mod]
  by_cases last : m = burst - used % burst
  · have whole : used % burst + m = burst := by omega
    rw [whole, Nat.mod_self]
    exact ⟨fun _ => last, fun _ => rfl⟩
  · have short : used % burst + m < burst := by omega
    rw [Nat.mod_eq_of_lt short]
    omega

/-- A turn lasts until the first of service, burst, slice, allotment and boost
period is used up. -/
theorem Lasts.first (positive : 0 < k) (left : k ≤ (s.entries i).left)
    (burst : w.burst i ≠ 0 → k ≤ w.burst i - (s.entries i).used % w.burst i)
    (slice : (k : Int) ≤ (s.entries i).slice)
    (allot : (s.entries i).level ≠ 2 → (k : Int) ≤ (s.entries i).allot) (boost : s.now + k ≤ s.nextBoost)
    (ends : k = (s.entries i).left ∨ (w.burst i ≠ 0 ∧ k = w.burst i - (s.entries i).used % w.burst i) ∨
      (k : Int) = (s.entries i).slice ∨ ((s.entries i).level ≠ 2 ∧ (k : Int) = (s.entries i).allot) ∨
      s.now + k = s.nextBoost) : Lasts w s i k := by
  refine ⟨positive, ?_, fun m some_ before halts => ?_⟩
  · unfold Halts Workload.Voluntary Entry.Expired Entry.Demotes Entry.spent
    dsimp only
    rcases ends with finished | ⟨bursts, voluntary⟩ | sliced | ⟨above, allotted⟩ | due
    · exact .inl (by omega)
    · exact .inr (.inl ⟨bursts, (first_multiple _ positive voluntary.le).mpr voluntary⟩)
    · exact .inr (.inr (.inl (.inr (by omega))))
    · by_cases finished : (s.entries i).left - k = 0
      · exact .inl finished
      · refine .inr (.inr (.inl (.inl ⟨finished, rfl, ?_, ?_⟩)))
        · omega
        · rw [if_pos above]
          omega
    · exact .inr (.inr (.inr due.ge))
  · unfold Halts Workload.Voluntary Entry.Expired Entry.Demotes Entry.spent at halts
    dsimp only at halts
    rcases halts with finished | ⟨bursts, voluntary⟩ | (⟨-, -, low, allotted⟩ | sliced) | due
    · omega
    · have near := burst bursts
      have last := (first_multiple _ some_ (by omega)).mp voluntary
      omega
    · have above : (s.entries i).level ≠ 2 := by omega
      have more := allot above
      rw [if_pos above] at allotted
      omega
    · omega
    · omega

/-! ### One tick -/

section tick
variable (nowait : w.wait i = 0) (awake : Awake s)
include nowait

theorem leave_nowait (now : Nat) (e : Entry) :
    w.leave i now e = if e.left = 0 then { e with done := some now, phase := .done } else e := by
  unfold Workload.leave
  simp [nowait]

include awake

theorem charged_awake : Awake (w.charged .mlfq s i) := by
  intro j
  by_cases own : j = i
  · subst own
    obtain ⟨level, slice, allot, same⟩ := renew_eq .mlfq (s.entries j)
    rw [charged_mine, leave_nowait nowait, same]
    split
    · simp [Entry.Sleeps]
    · exact awake j
  · rw [charged_others own]
    exact awake j

theorem spend_awake : w.spend .mlfq s i = w.charged .mlfq s i :=
  scan_settled fun j sleeps => absurd sleeps (charged_awake nowait awake j)

/-- A tick that ends nothing. -/
theorem tick_inside (goes : ¬ Halts w s i 1) (foremost : Foremost s i) : w.tick .mlfq s i = s.inside i := by
  simp only [Halts, not_or, not_le] at goes
  obtain ⟨more, stays, lasts, early⟩ := goes
  have fresh : (s.entries i).charge.renew .mlfq = (s.entries i).charge := by
    simp only [Entry.Expired, not_or] at lasts
    unfold Entry.renew
    rw [charge_spent, if_neg lasts.1, if_neg lasts.2]
  have spend : w.spend .mlfq s i = s.inside i := by
    rw [spend_awake nowait awake]
    unfold Workload.charged State.inside
    have kept : ¬ (s.entries i).charge.Demotes .mlfq := fun demotes => lasts (.inl demotes)
    rw [fresh, leave_nowait nowait, charge_spent, if_neg more, ← charge_spent, if_neg kept, List.append_nil]
  have calm : ¬ (s.inside i).Preempts .mlfq i := by
    rintro ⟨-, ⟨j, member, lower⟩ | due⟩
    · rw [inside_level, inside_level] at lower
      exact foremost j member lower
    · exact absurd due (not_le.mpr early)
  rw [tick_eq, spend, charge_spent, if_neg]
  rintro (none | voluntary | expired | preempts)
  · exact more none
  · exact stays voluntary
  · exact lasts expired
  · exact calm preempts

/-- A tick that ends the turn. -/
theorem tick_turned (halts : Halts w s i 1) (running : (s.entries i).phase = .running) :
    w.tick .mlfq s i = s.turned i 1 := by
  have ends : (s.entries i).charge.left = 0 ∨ w.Voluntary i (s.entries i).charge ∨
      (s.entries i).charge.Expired .mlfq ∨ (w.spend .mlfq s i).Preempts .mlfq i := by
    rw [spend_awake nowait awake]
    exact halts.imp_right (Or.imp_right (Or.imp_right fun due => ⟨rfl, .inr due⟩))
  obtain ⟨level, slice, allot, same⟩ := renew_eq .mlfq (s.entries i)
  have phase : ((s.entries i).charge.renew .mlfq).phase = .running := by rw [same]; exact running
  have left : ((s.entries i).charge.renew .mlfq).left = ((s.entries i).spent 1).left := by rw [same]; rfl
  rw [tick_eq, if_pos ends, spend_awake nowait awake]
  unfold State.turned Entry.stopped
  by_cases none : ((s.entries i).spent 1).left = 0
  · have gone : w.leave i (s.now + 1) ((s.entries i).charge.renew .mlfq) =
        { (s.entries i).charge.renew .mlfq with done := some (s.now + 1), phase := .done } := by
      rw [leave_nowait nowait, if_pos (left.trans none)]
    unfold State.giveUp
    rw [charged_mine, gone, if_neg (by simp), if_pos none, if_pos none, List.append_nil]
    unfold Workload.charged
    rw [gone]
    rfl
  · have stays : w.leave i (s.now + 1) ((s.entries i).charge.renew .mlfq) =
        (s.entries i).charge.renew .mlfq := by
      rw [leave_nowait nowait, if_neg (left ▸ none)]
    unfold State.giveUp
    rw [charged_mine, stays, if_pos phase, if_neg none, if_neg none]
    unfold Workload.charged State.setEntry
    rw [stays, Function.update_idem]
    rfl

end tick

/-! ### The turn -/

theorem AtHead.turns (head : AtHead w s) (turns : Turns State.Going (w.pass policy period) s t) : AtHead w t := by
  induction turns with
  | done => exact head
  | turn on next _ ih => exact ih (head.next next)

theorem AtHead.leads_switches (head : AtHead w s) (leads : w.Leads policy period s t) : s.switches ≤ t.switches := by
  unfold Workload.Leads at leads
  generalize final : Except.ok t = r at leads
  induction leads with
  | stop =>
    cases final
    exact le_rfl
  | raise => cases final
  | turn _ next _ ih =>
    refine le_trans ?_ (ih (head.next next) final)
    rw [head.next_switches next, poised_switches]
    exact Nat.le_add_right _ _

/-- A simulation that still has a dispatch ahead counts it. -/
theorem AtHead.leads_dispatch (head : AtHead w s) (free : s.current = none) (some_ : s.scan.ready ≠ [])
    (on : s.Going) (leads : w.Leads policy period s t) : s.switches + 1 ≤ t.switches := by
  unfold Workload.Leads at leads
  generalize final : Except.ok t = r at leads
  cases leads with
  | stop stopped => exact absurd on stopped
  | raise => cases final
  | turn _ next rest =>
    subst final
    refine le_trans ?_ ((head.next next).leads_switches rest)
    rw [head.next_switches next, poised_switches, if_pos ⟨free, some_⟩]

/-- From the head of a turn, the passes of the loop that make it up. -/
theorem Lasts.turns (lasts : Lasts w (s.poised .mlfq period) i k) (head : AtHead w s) (on : s.Going)
    (nowait : w.wait i = 0) (current : (s.poised .mlfq period).current = some i)
    (awake : Awake (s.poised .mlfq period)) (foremost : Foremost (s.poised .mlfq period) i) :
    Turns State.Going (w.pass .mlfq period) s ((s.poised .mlfq period).turned i k) := by
  induction k generalizing s with
  | zero => exact absurd lasts.positive (lt_irrefl 0)
  | succ k ih =>
    obtain ⟨a, rfl, head', -, ⟨free, -⟩ | ⟨j, mine, running, next⟩⟩ := head.cases .mlfq period
    · exact absurd (current.symm.trans free) (by simp)
    obtain rfl : j = i := Option.some.inj (mine.symm.trans current)
    by_cases last : Halts w (s.poised .mlfq period) j 1
    · obtain rfl : k = 0 := by
        by_contra longer
        exact lasts.goes 1 Nat.one_pos (by omega) last
      rw [tick_turned nowait awake last running] at next
      exact .once on next
    · rw [tick_inside nowait awake last foremost] at next
      have further : ((s.poised .mlfq period).inside j).poised .mlfq period =
          (s.poised .mlfq period).inside j :=
        (head.next_undisturbed next).poised current
      have unended : ((s.poised .mlfq period).inside j).Going := by
        refine ⟨j, ?_⟩
        rw [inside_mine]
        exact (head'.fits j).unended.mpr (by simp [running])
      have rest : Lasts w ((s.poised .mlfq period).inside j) j k := by
        have many : k ≠ 0 := by
          rintro rfl
          exact last lasts.halts
        refine ⟨Nat.pos_of_ne_zero many, ?_, fun m some less => ?_⟩
        · rw [inside_halts, Nat.add_comm]
          exact lasts.halts
        · rw [inside_halts]
          exact lasts.goes (1 + m) (by omega) (by omega)
      have onward := ih (s := (s.poised .mlfq period).inside j) (by rw [further]; exact rest)
        (head.next next) unended (by rw [further]; exact current)
        (by
          rw [further]
          intro i
          by_cases own : i = j
          · subst own
            rw [inside_mine]
            exact awake i
          · have other : ((s.poised .mlfq period).inside j).entries i = (s.poised .mlfq period).entries i :=
              Function.update_of_ne own ..
            rw [other]
            exact awake i)
        (by
          rw [further]
          intro i member
          rw [inside_level, inside_level]
          exact foremost i member)
      rw [further, inside_turned, Nat.add_comm] at onward
      exact .turn on next onward

/-- What has been executed and what a job still has to do fit into the service. -/
theorem AtHead.within (head : AtHead w s) (i : Fin n) : s.trace.length + (s.entries i).left ≤ ∑ j, w.service j := by
  have each (j : Fin n) : (times s.trace j).length + (if j = i then (s.entries i).left else 0) ≤ w.service j := by
    have account := (head.fits j).left
    have used := (head.fits j).used
    split
    · rename_i own
      subst own
      omega
    · omega
  have split : s.trace.length + (s.entries i).left =
      ∑ j, ((times s.trace j).length + if j = i then (s.entries i).left else 0) := by
    rw [Finset.sum_add_distrib, ← length_times, Finset.sum_ite_eq' Finset.univ i]
    simp
  rw [split]
  exact Finset.sum_le_sum fun j _ => each j

/-! ### Jobs that are all there from the start -/

/-- The first scan of a pass can be done before it. -/
theorem pass_scan (settled : Settled s.scan) : w.pass policy period s.scan = w.pass policy period s := by
  unfold Workload.pass
  rw [scan_settled settled]

theorem start_scan (early : ∀ i, w.arrival i = 0) (proper : ∀ i, 0 < w.service i) :
    (w.start period).scan = { w.start period with
      entries := fun i => { (w.start period).entries i with phase := .ready }
      ready := List.finRange n } := by
  have due (i : Fin n) : ((w.start period).entries i).Sleeps ∧
      ((w.start period).entries i).wake ≤ (w.start period).now := ⟨.inl rfl, (early i).le⟩
  have some_ (i : Fin n) : ((w.start period).entries i).left ≠ 0 := (proper i).ne'
  have rises (i : Fin n) : Rises (w.start period).now ((w.start period).entries i) := ⟨due i, some_ i⟩
  have woke (i : Fin n) : woken (w.start period).now ((w.start period).entries i) =
      { (w.start period).entries i with phase := .ready } := by
    unfold woken
    rw [if_pos (due i), if_neg (some_ i)]
    rfl
  rw [scan_eq]
  simp only [woke, rises, decide_true, List.filter_true]
  rfl

theorem start_scan_head (w : Workload n) (period : Nat) :
    AtHead w (w.start period).scan ∧ Settled (w.start period).scan := by
  obtain ⟨kept, settled⟩ := (start_kept w period).scan
  refine ⟨⟨kept, fun i mine => ?_⟩, settled⟩
  rw [scan_current] at mine
  cases mine

/-- A run from after the first scan is a run from the start. -/
theorem scan_leads (going : (w.start period).scan.Going) (going' : (w.start period).Going) :
    w.Leads policy period (w.start period).scan t ↔ w.Leads policy period (w.start period) t := by
  have same : w.pass policy period (w.start period).scan = w.pass policy period (w.start period) :=
    pass_scan (start_scan_head w period).2
  exact ⟨Ends.same_turn going going' same, Ends.same_turn going' going same.symm⟩

end Neonos.Mlfq
