import Neonos.MlfqEntry

/-! What one pass of the MLFQ simulator does: every part of the loop body keeps
the account of the whole state, and no assertion in it fails. -/
namespace Neonos.Mlfq
open StableChoice WhileLoop

variable {w : Workload n} {policy : Policy} {period : Nat} {s t : State n} {i j : Fin n} {e : Entry}

/-! ### The whole state -/

theorem times_snoc [DecidableEq ι] (trace : List (Tick ι)) (x : Tick ι) (k : ι) :
    times (trace ++ [x]) k = times trace k ++ if x.job = k then [x.time] else [] := by
  unfold times
  by_cases mine : x.job = k <;> simp [mine]

theorem mem_times [DecidableEq ι] {trace : List (Tick ι)} : τ ∈ times trace k ↔ ∃ x ∈ trace, x.job = k ∧ x.time = τ := by
  simp [times, and_assoc]

/-- Blocked at `τ`, by the ticks it has had: a whole burst was over shortly before. -/
def Rests (w : Workload n) (i : Fin n) (ticks : List Nat) (τ : Nat) : Prop :=
  ∃ k x, ticks[k]? = some x ∧ w.burst i ∣ k + 1 ∧ k + 1 < w.service i ∧ x < τ ∧ τ ≤ x + w.wait i

/-- What holds throughout the body of the loop. -/
structure Kept (w : Workload n) (s : State n) : Prop where
  fits : ∀ i, Fits w i s.now (s.current = some i) (times s.trace i) (s.entries i)
  early : ∀ i, (s.entries i).Sleeps → s.now ≤ (s.entries i).wake
  distinct : s.ready.Nodup
  ready : ∀ i, i ∈ s.ready ↔ (s.entries i).phase = .ready
  running : ∀ i, (s.entries i).phase = .running → s.current = some i
  ordered : s.trace.Pairwise fun x y => x.time < y.time
  idle : ∀ τ < s.now, (∀ x ∈ s.trace, x.time ≠ τ) → ∀ i, w.arrival i ≤ τ →
    (∃ d ≤ τ, (s.entries i).done = some d) ∨ Rests w i (times s.trace i) τ

/-- At the head of the loop the current job runs. -/
def Steady (s : State n) : Prop := ∀ i, s.current = some i → (s.entries i).phase = .running

/-- After a scan nobody's time has come. -/
def Settled (s : State n) : Prop := ∀ i, (s.entries i).Sleeps → s.now < (s.entries i).wake

theorem start_kept (w : Workload n) (period : Nat) : Kept w (w.start period) :=
  ⟨fun i => start_fits w i, fun i _ => Nat.zero_le _, List.nodup_nil, fun i => by simp [Workload.start], nofun,
    List.Pairwise.nil, nofun⟩

theorem start_steady (w : Workload n) (period : Nat) : Steady (w.start period) := nofun

theorem Kept.past (kept : Kept w s) : ∀ x ∈ s.trace, x.time < s.now :=
  fun x member => ((kept.fits x.job).past x.time (mem_times.mpr ⟨x, member, rfl, rfl⟩)).2

theorem Kept.awake (kept : Kept w s) (member : i ∈ s.ready) : ¬ (s.entries i).Sleeps := by
  simp [Entry.Sleeps, (kept.ready i).mp member]

theorem Kept.scan (kept : Kept w s) : Kept w s.scan ∧ Settled s.scan := by
  have settled : Settled s.scan := by
    intro i
    rw [scan_entries, scan_now]
    intro sleeps
    obtain ⟨same, -, early⟩ := woken_sleeps sleeps
    rw [same]
    exact early
  refine ⟨⟨fun i => ?_, fun i sleeps => (settled i sleeps).le, ?_, fun i => ?_, fun i => ?_, ?_, ?_⟩, settled⟩
  · rw [scan_entries, scan_now, scan_trace, scan_current]
    exact (kept.fits i).woken (kept.early i)
  · rw [scan_ready]
    refine List.Nodup.append kept.distinct ((List.nodup_finRange n).filter _) ?_
    intro i member rises
    have rises : Rises s.now (s.entries i) := by simpa using (List.mem_filter.mp rises).2
    exact kept.awake member rises.1.1
  · rw [scan_ready, scan_entries, List.mem_append, kept.ready, woken_ready]
    simp
  · rw [scan_entries, scan_current, woken_running]
    exact kept.running i
  · rw [scan_trace]
    exact kept.ordered
  · rw [scan_trace, scan_now]
    intro τ before gap i here
    rw [scan_entries]
    refine (kept.idle τ before gap i here).imp (fun ⟨d, past, done⟩ => ⟨d, past, ?_⟩) id
    have stopped := (kept.fits i).ended done
    rw [woken_awake (by simp [Entry.Sleeps, stopped])]
    exact done

theorem scan_settled (settled : Settled s) : s.scan = s := by
  have idle (i : Fin n) : ¬ ((s.entries i).Sleeps ∧ (s.entries i).wake ≤ s.now) :=
    fun due => absurd (settled i due.1) (not_lt.mpr due.2)
  have same (i : Fin n) : woken s.now (s.entries i) = s.entries i := if_neg (idle i)
  have nobody (i : Fin n) : ¬ Rises s.now (s.entries i) := fun rises => idle i rises.1
  rw [scan_eq]
  simp [same, nobody]

theorem boost_other (s : State n) (policy : Policy) (period : Nat) :
    (s.boost policy period).ready = s.ready ∧ (s.boost policy period).trace = s.trace ∧
    (s.boost policy period).now = s.now ∧ (s.boost policy period).current = s.current ∧
    (s.boost policy period).switches = s.switches ∧
    ∀ i, ∃ level slice allot, (s.boost policy period).entries i = { s.entries i with level, slice, allot } := by
  unfold State.boost
  split
  · refine ⟨rfl, rfl, rfl, rfl, rfl, fun i => ?_⟩
    simp only
    split
    · exact ⟨_, _, _, rfl⟩
    · exact ⟨_, _, _, rfl⟩
  · exact ⟨rfl, rfl, rfl, rfl, rfl, fun i => ⟨_, _, _, rfl⟩⟩

/-- The next boost is ahead once this one has been given. -/
theorem boost_ahead (s : State n) (positive : 0 < period) : s.now < (s.boost .mlfq period).nextBoost := by
  unfold State.boost
  split
  · change s.now < (s.now / period + 1) * period
    rw [Nat.mul_comm]
    exact Nat.lt_mul_div_succ s.now positive
  · rename_i early
    by_contra due
    exact early ⟨rfl, not_lt.mp due⟩

theorem Kept.boost (kept : Kept w s) (policy : Policy) (period : Nat) : Kept w (s.boost policy period) := by
  obtain ⟨ready, trace, now, current, -, entries⟩ := boost_other s policy period
  obtain ⟨fits, early, distinct, queued, running, ordered, idle⟩ := kept
  refine ⟨fun i => ?_, fun i => ?_, ready ▸ distinct, fun i => ?_, fun i => ?_, trace ▸ ordered, ?_⟩
  · obtain ⟨level, slice, allot, same⟩ := entries i
    rw [same, trace, now, current]
    exact (fits i).levels level slice allot
  · obtain ⟨level, slice, allot, same⟩ := entries i
    rw [same, now]
    exact early i
  · obtain ⟨level, slice, allot, same⟩ := entries i
    rw [same, ready]
    exact queued i
  · obtain ⟨level, slice, allot, same⟩ := entries i
    rw [same, current]
    exact running i
  · rw [now, trace]
    intro τ before gap i here
    obtain ⟨level, slice, allot, same⟩ := entries i
    rw [same]
    exact idle τ before gap i here

theorem Settled.boost (settled : Settled s) (policy : Policy) (period : Nat) :
    Settled (s.boost policy period) := by
  obtain ⟨-, -, now, -, -, entries⟩ := boost_other s policy period
  intro i
  obtain ⟨level, slice, allot, same⟩ := entries i
  rw [same, now]
  exact settled i

theorem choose_mem (chosen : s.choose policy = some i) : i ∈ s.ready := by
  cases policy with
  | mlfq => exact (least_takes chosen).mem
  | rr => exact List.mem_of_mem_head? chosen

theorem choose_none (policy : Policy) (none : s.choose policy = none) : s.ready = [] := by
  cases policy with
  | mlfq => exact least_none.mp none
  | rr => exact List.head?_eq_none_iff.mp none

theorem dispatch_cases (s : State n) (policy : Policy) :
    (∃ i, s.current = none ∧ s.choose policy = some i ∧ s.dispatch policy = { s with
      entries := Function.update s.entries i ((s.entries i).taken s.now)
      ready := s.ready.erase i
      current := some i
      switches := s.switches + 1 }) ∨
    (s.current = none → s.ready = []) ∧ s.dispatch policy = s := by
  unfold State.dispatch
  split
  · rename_i free chosen
    exact .inl ⟨_, free, chosen, rfl⟩
  · rename_i other
    refine .inr ⟨fun free => choose_none policy ?_, rfl⟩
    by_contra some
    obtain ⟨i, chosen⟩ := Option.ne_none_iff_exists'.mp some
    exact other i free chosen

theorem Kept.dispatch (kept : Kept w s) (settled : Settled s) (steady : Steady s) (policy : Policy) :
    Kept w (s.dispatch policy) ∧ Settled (s.dispatch policy) ∧ Steady (s.dispatch policy) := by
  rcases dispatch_cases s policy with ⟨i, free, chosen, same⟩ | ⟨-, same⟩
  · rw [same]
    have mine := choose_mem chosen
    have ready := (kept.ready i).mp mine
    have nobody (j : Fin n) : (s.entries j).phase ≠ .running := by
      intro running
      exact absurd (free.symm.trans (kept.running j running)) nofun
    refine ⟨⟨fun j => ?_, fun j => ?_, kept.distinct.erase i, fun j => ?_, fun j => ?_, kept.ordered, ?_⟩,
      fun j => ?_, fun j => ?_⟩ <;> simp only
    · have fits := kept.fits j
      simp only [free] at fits
      by_cases own : j = i
      · subst own
        simpa using Fits.dispatched (by simpa using fits) ready
      · simpa [own, Ne.symm own] using fits
    · by_cases own : j = i
      · subst own
        simp [Entry.Sleeps, Entry.taken]
      · simpa [own] using kept.early j
    · by_cases own : j = i
      · subst own
        simp [Entry.taken, kept.distinct.not_mem_erase]
      · simpa [own, List.mem_erase_of_ne own] using kept.ready j
    · by_cases own : j = i
      · subst own
        simp
      · simp [own, nobody j]
    · intro τ before gap j here
      refine (kept.idle τ before gap j here).imp_left ?_
      rintro ⟨d, past, done⟩
      refine ⟨d, past, Eq.trans (update_kept Entry.done ?_ j) done⟩
      rfl
    · by_cases own : j = i
      · subst own
        simp [Entry.Sleeps, Entry.taken]
      · simpa [own] using settled j
    · rintro ⟨⟩
      simp [Entry.taken]
  · rw [same]
    exact ⟨kept, settled, steady⟩

/-! ### A tick -/

/-- A tick up to the second scan. -/
def Workload.charged (w : Workload n) (policy : Policy) (s : State n) (i : Fin n) : State n :=
  { s with
    entries := Function.update s.entries i (w.leave i (s.now + 1) ((s.entries i).charge.renew policy))
    events := s.events ++ if (s.entries i).charge.Demotes policy then [.demote (s.now + 1) i] else []
    trace := s.trace ++ [⟨s.now, i, (s.entries i).level⟩]
    now := s.now + 1 }

theorem spend_eq (w : Workload n) (policy : Policy) (s : State n) (i : Fin n) :
    w.spend policy s i = (w.charged policy s i).scan := rfl

theorem leave_cases (w : Workload n) (i : Fin n) (now : Nat) (e : Entry) :
    (e.left = 0 ∧ w.leave i now e = { e with done := some now, phase := .done }) ∨
    (e.left ≠ 0 ∧ w.Voluntary i e ∧ w.leave i now e = { e with phase := .blocked, wake := now + w.wait i }) ∨
    (e.left ≠ 0 ∧ w.leave i now e = e) := by
  unfold Workload.leave
  split
  · exact .inl ⟨‹_›, rfl⟩
  · split
    · rename_i blocks
      exact .inr (.inl ⟨‹_›, blocks.1, rfl⟩)
    · exact .inr (.inr ⟨‹_›, rfl⟩)

theorem charged_mine (w : Workload n) (policy : Policy) (s : State n) (i : Fin n) :
    (w.charged policy s i).entries i = w.leave i (s.now + 1) ((s.entries i).charge.renew policy) :=
  Function.update_self ..

theorem charged_others (different : j ≠ i) : (w.charged policy s i).entries j = s.entries j :=
  Function.update_of_ne different ..

theorem charged_times (w : Workload n) (policy : Policy) (s : State n) (i j : Fin n) :
    times (w.charged policy s i).trace j = times s.trace j ++ if j = i then [s.now] else [] := by
  rw [Workload.charged, times_snoc]
  simp only [eq_comm]

theorem Kept.charged (kept : Kept w s) (settled : Settled s) (current : s.current = some i)
    (running : (s.entries i).phase = .running) : Kept w (w.charged policy s i) := by
  have mine := charged_mine w policy s i
  have others (j : Fin n) (different : j ≠ i) : (w.charged policy s i).entries j = s.entries j :=
    charged_others different
  have phase : ((s.entries i).charge.renew policy).phase = .running := by
    obtain ⟨level, slice, allot, same⟩ := renew_eq policy (s.entries i)
    rw [same]
    exact running
  refine ⟨fun j => ?_, fun j => ?_, kept.distinct, fun j => ?_, fun j => ?_, ?_, ?_⟩
  · rw [charged_times]
    change Fits w j (s.now + 1) (s.current = some j) _ _
    have fits := kept.fits j
    by_cases own : j = i
    · subst own
      rw [decide_eq_true current] at fits ⊢
      rw [mine, if_pos rfl]
      exact fits.spent running
    · have idle : decide (s.current = some j) = false := by simp [current, Ne.symm own]
      rw [idle] at fits ⊢
      rw [others j own, if_neg own, List.append_nil]
      exact fits.later (Nat.le_succ s.now)
  · change _ → s.now + 1 ≤ _
    by_cases own : j = i
    · subst own
      rw [mine]
      rcases leave_cases w j (s.now + 1) ((s.entries j).charge.renew policy) with
        ⟨-, same⟩ | ⟨-, -, same⟩ | ⟨-, same⟩
      · simp [same, Entry.Sleeps]
      · simp [same]
      · simp [same, Entry.Sleeps, phase]
    · rw [others j own]
      exact settled j
  · change j ∈ s.ready ↔ _
    by_cases own : j = i
    · subst own
      have away : j ∉ s.ready := by simp [kept.ready, running]
      rw [mine]
      rcases leave_cases w j (s.now + 1) ((s.entries j).charge.renew policy) with
        ⟨-, same⟩ | ⟨-, -, same⟩ | ⟨-, same⟩ <;> simp [same, away, phase]
    · rw [others j own]
      exact kept.ready j
  · by_cases own : j = i
    · subst own
      exact fun _ => current
    · rw [others j own]
      exact kept.running j
  · refine List.pairwise_append.mpr ⟨kept.ordered, List.pairwise_singleton _ _, fun x before y last => ?_⟩
    rw [List.mem_singleton.mp last]
    exact kept.past x before
  · intro τ before gap j here
    have old : τ < s.now := by
      have apart : s.now ≠ τ := gap ⟨s.now, i, (s.entries i).level⟩ (List.mem_append_right _ List.mem_cons_self)
      have early : τ < s.now + 1 := before
      omega
    have since := kept.idle τ old (fun x member => gap x (List.mem_append_left _ member)) j here
    rw [charged_times]
    rcases since with ⟨d, past, done⟩ | ⟨k, x, tick, rest⟩
    · have other : j ≠ i := by
        rintro rfl
        rw [(kept.fits j).ended done] at running
        cases running
      rw [others j other]
      exact .inl ⟨d, past, done⟩
    · refine .inr ⟨k, x, ?_, rest⟩
      rw [List.getElem?_append_left (List.getElem?_eq_some_iff.mp tick).1]
      exact tick

theorem giveUp_cases (s : State n) (i : Fin n) :
    ((s.entries i).phase = .running ∧ s.giveUp i = { s with
      entries := Function.update s.entries i { s.entries i with phase := .ready, readyAt := s.now }
      ready := s.ready ++ [i]
      current := none }) ∨
    ((s.entries i).phase ≠ .running ∧ s.giveUp i = { s with current := none }) := by
  unfold State.giveUp
  split
  · exact .inl ⟨‹_›, rfl⟩
  · exact .inr ⟨‹_›, rfl⟩

theorem Kept.giveUp (kept : Kept w s) (current : s.current = some i) (some : times s.trace i ≠ []) :
    Kept w (s.giveUp i) := by
  have released (j : Fin n) : Fits w j s.now false (times s.trace j) (s.entries j) := by
    have fits := kept.fits j
    by_cases own : j = i
    · subst own
      rw [decide_eq_true current] at fits
      exact fits.released some
    · have idle : decide (s.current = Option.some j) = false := by simp [current, Ne.symm own]
      rwa [idle] at fits
  rcases giveUp_cases s i with ⟨running, same⟩ | ⟨halted, same⟩
  · rw [same]
    have away : i ∉ s.ready := by simp [kept.ready, running]
    refine ⟨fun j => ?_, fun j => ?_, ?_, fun j => ?_, fun j => ?_, kept.ordered, ?_⟩ <;> simp only
    · by_cases own : j = i
      · subst own
        have fits := kept.fits j
        rw [decide_eq_true current] at fits
        simpa using fits.gaveUp running some s.now
      · simpa [own] using released j
    · by_cases own : j = i
      · subst own
        simp [Entry.Sleeps]
      · simpa [own] using kept.early j
    · exact List.Nodup.append kept.distinct (List.nodup_singleton i) (by simpa using away)
    · by_cases own : j = i
      · subst own
        simp
      · simpa [own] using kept.ready j
    · by_cases own : j = i
      · subst own
        simp
      · intro runs
        simp only [Function.update_of_ne own] at runs
        cases current.symm.trans (kept.running j runs)
        exact absurd rfl own
    · intro τ before gap j here
      refine (kept.idle τ before gap j here).imp_left ?_
      rintro ⟨d, past, done⟩
      refine ⟨d, past, Eq.trans (update_kept Entry.done ?_ j) done⟩
      rfl
  · rw [same]
    refine ⟨fun j => ?_, kept.early, kept.distinct, kept.ready, fun j runs => ?_, kept.ordered, kept.idle⟩
    · simpa using released j
    · cases current.symm.trans (kept.running j runs)
      exact absurd runs halted

/-- A turn is over. -/
theorem giveUp_current (s : State n) (i : Fin n) : (s.giveUp i).current = none := by
  rcases giveUp_cases s i with ⟨-, same⟩ | ⟨-, same⟩ <;> rw [same]

theorem tick_eq (w : Workload n) (policy : Policy) (s : State n) (i : Fin n) :
    w.tick policy s i = if (s.entries i).charge.left = 0 ∨ w.Voluntary i (s.entries i).charge ∨
      (s.entries i).charge.Expired policy ∨ (w.spend policy s i).Preempts policy i
    then (w.spend policy s i).giveUp i else w.spend policy s i := rfl

/-- The end of a turn, if it has one. -/
theorem tick_cases (w : Workload n) (policy : Policy) (s : State n) (i : Fin n) :
    w.tick policy s i = (w.spend policy s i).giveUp i ∨
    w.tick policy s i = w.spend policy s i ∧ (s.entries i).charge.left ≠ 0 ∧
      ¬ w.Voluntary i (s.entries i).charge ∧ ¬ (s.entries i).charge.Expired policy ∧
      ¬ (w.spend policy s i).Preempts policy i := by
  rw [tick_eq]
  split
  · exact .inl rfl
  · rename_i on
    simp only [not_or] at on
    exact .inr ⟨rfl, on⟩

theorem tick_trace (w : Workload n) (policy : Policy) (s : State n) (i : Fin n) :
    (w.tick policy s i).trace = s.trace ++ [⟨s.now, i, (s.entries i).level⟩] ∧
      (w.tick policy s i).now = s.now + 1 := by
  have spent : (w.spend policy s i).trace = s.trace ++ [⟨s.now, i, (s.entries i).level⟩] ∧
      (w.spend policy s i).now = s.now + 1 := by
    rw [spend_eq, scan_trace, scan_now]
    exact ⟨rfl, rfl⟩
  rcases tick_cases w policy s i with stopped | ⟨on, -⟩
  · rw [stopped]
    rcases giveUp_cases (w.spend policy s i) i with ⟨-, given⟩ | ⟨-, given⟩ <;> rw [given] <;> exact spent
  · rw [on]
    exact spent

theorem tick_switches (w : Workload n) (policy : Policy) (s : State n) (i : Fin n) :
    (w.tick policy s i).switches = s.switches := by
  have spent : (w.spend policy s i).switches = s.switches := by
    rw [spend_eq, scan_switches]
    rfl
  rcases tick_cases w policy s i with stopped | ⟨on, -⟩
  · rw [stopped, ← spent]
    rcases giveUp_cases (w.spend policy s i) i with ⟨-, given⟩ | ⟨-, given⟩ <;> rw [given]
  · rw [on, spent]

theorem Kept.tick (kept : Kept w s) (settled : Settled s) (policy : Policy) (current : s.current = some i)
    (running : (s.entries i).phase = .running) :
    Kept w (w.tick policy s i) ∧ Steady (w.tick policy s i) := by
  have spent : Kept w (w.spend policy s i) := (kept.charged settled current running).scan.1
  have now : (w.spend policy s i).current = some i := by
    rw [spend_eq, scan_current]
    exact current
  have some : times (w.spend policy s i).trace i ≠ [] := by
    rw [spend_eq, scan_trace, charged_times]
    simp
  rcases tick_cases w policy s i with stopped | ⟨on, more, stays, -⟩
  · rw [stopped]
    refine ⟨spent.giveUp now some, fun j other => ?_⟩
    exact absurd ((giveUp_current _ i).symm.trans other) nofun
  · rw [on]
    refine ⟨spent, fun j other => ?_⟩
    cases now.symm.trans other
    obtain ⟨level, slice, allot, same⟩ := renew_eq policy (s.entries i)
    rw [spend_eq, scan_entries, woken_running, charged_mine]
    rcases leave_cases w i (s.now + 1) ((s.entries i).charge.renew policy) with
      ⟨none, -⟩ | ⟨-, voluntary, -⟩ | ⟨-, still⟩
    · rw [same] at none
      exact absurd none more
    · rw [same] at voluntary
      exact absurd voluntary stays
    · rw [still, same]
      exact running

/-! ### The pass -/

theorem idle_cases (s : State n) :
    (∃ i, (s.entries i).Sleeps ∧ (∀ j, (s.entries j).Sleeps → (s.entries i).wake ≤ (s.entries j).wake) ∧
      s.idle = { s with now := (s.entries i).wake }) ∨
    (∀ i, ¬ (s.entries i).Sleeps) ∧ s.idle = s := by
  unfold State.idle
  split
  · rename_i next found
    obtain ⟨among, least⟩ := List.min?_eq_some_iff.mp found
    obtain ⟨i, sleeps, rfl⟩ := List.mem_map.mp among
    refine .inl ⟨i, by simpa using sleeps, fun j other => ?_, rfl⟩
    exact least _ (List.mem_map.mpr ⟨j, by simpa using other, rfl⟩)
  · rename_i none
    refine .inr ⟨fun i sleeps => ?_, rfl⟩
    have empty := List.map_eq_nil_iff.mp (List.min?_eq_none_iff.mp none)
    have member : i ∈ (List.finRange n).filter fun i => (s.entries i).Sleeps := by simpa using sleeps
    rw [empty] at member
    cases member

theorem idle_switches (s : State n) : s.idle.switches = s.switches := by
  rcases idle_cases s with ⟨_, -, -, moved⟩ | ⟨-, moved⟩ <;> rw [moved]

theorem Fits.done_past (fits : Fits w i now mine ticks e) (done : e.done = some d) : d ≤ now := by
  have stopped := fits.ended done
  rcases Nat.eq_zero_or_pos (w.service i) with zero | proper
  · rw [(fits.empty zero stopped).2] at done
    cases done
    exact fits.arrived (by simp [stopped])
  · rw [fits.done proper stopped] at done
    obtain ⟨x, last, rfl⟩ := Option.map_eq_some_iff.mp done
    exact (fits.past x (List.mem_of_mem_getLast? last)).2

/-- Whoever is blocked rests until it wakes. -/
theorem Fits.rests (fits : Fits w i now mine ticks e) (blocked : e.phase = .blocked) (since : now ≤ τ)
    (upto : τ < e.wake) : Rests w i ticks τ := by
  obtain ⟨x, last, whole, wake⟩ := fits.blocked blocked
  have more := fits.more (by simp [blocked]) (by simp [blocked])
  have some : ticks ≠ [] := by
    rintro rfl
    cases last
  have long := List.length_pos_iff.mpr some
  have account := fits.left
  have used := fits.used
  have past := (fits.past x (List.mem_of_mem_getLast? last)).2
  refine ⟨ticks.length - 1, x, ?_, ?_, ?_, ?_, ?_⟩
  · rwa [← List.getLast?_eq_getElem?]
  · rwa [Nat.sub_add_cancel long]
  · omega
  · omega
  · omega

theorem Kept.idles (kept : Kept w s) (settled : Settled s) (free : s.current = none) (nobody : s.ready = []) :
    Kept w s.idle := by
  rcases idle_cases s with ⟨i, sleeps, first, same⟩ | ⟨-, same⟩
  · have later := (settled i sleeps).le
    rw [same]
    refine ⟨fun j => ?_, first, kept.distinct, kept.ready, kept.running, kept.ordered, ?_⟩
    · have fits := kept.fits j
      simp only [free] at fits ⊢
      exact Fits.later (by simpa using fits) later
    · intro τ before gap j here
      by_cases old : τ < s.now
      · exact kept.idle τ old gap j here
      · have since := not_lt.mp old
        have fits := kept.fits j
        have upto : (s.entries j).Sleeps → τ < (s.entries j).wake :=
          fun other => Nat.lt_of_lt_of_le before (first j other)
        cases phase : (s.entries j).phase with
        | new =>
          have early := upto (.inl phase)
          rw [(fits.new phase).2] at early
          exact absurd here (not_le.mpr early)
        | ready =>
          have member := (kept.ready j).mpr phase
          rw [nobody] at member
          cases member
        | running => exact absurd (free.symm.trans (kept.running j phase)) nofun
        | blocked => exact .inr (fits.rests phase since (upto (.inr phase)))
        | done =>
          have some : (s.entries j).done ≠ none := fun none => fits.unended.mp none phase
          obtain ⟨d, done⟩ := Option.ne_none_iff_exists'.mp some
          exact .inl ⟨d, (fits.done_past done).trans since, done⟩
  · rw [same]
    exact kept

/-- Everything that holds at the head of the loop. -/
structure AtHead (w : Workload n) (s : State n) : Prop extends Kept w s where
  steady : Steady s

theorem start_head (w : Workload n) (period : Nat) : AtHead w (w.start period) :=
  ⟨start_kept w period, start_steady w period⟩

theorem Kept.checks (kept : Kept w s) : s.Checks :=
  ⟨kept.distinct, fun i => (kept.ready i).mp⟩

/-- The state in which a pass has its tick, or moves the time. -/
def State.poised (s : State n) (policy : Policy) (period : Nat) : State n :=
  (s.scan.boost policy period).dispatch policy

theorem poised_clock (s : State n) (policy : Policy) (period : Nat) : (s.poised policy period).now = s.now ∧
    (s.poised policy period).nextBoost = (s.scan.boost policy period).nextBoost := by
  have now := (boost_other s.scan policy period).2.2.1
  unfold State.poised
  rcases dispatch_cases (s.scan.boost policy period) policy with ⟨i, -, -, given⟩ | ⟨-, given⟩ <;> rw [given] <;>
    exact ⟨now.trans (scan_now s), rfl⟩

theorem AtHead.poised (head : AtHead w s) (policy : Policy) (period : Nat) :
    AtHead w (s.poised policy period) ∧ Settled (s.poised policy period) ∧
    ((s.poised policy period).current = none → (s.poised policy period).ready = []) := by
  obtain ⟨kept, settled⟩ := head.toKept.scan
  have steady : Steady (s.scan.boost policy period) := by
    obtain ⟨-, -, -, current, -, entries⟩ := boost_other s.scan policy period
    intro i mine
    obtain ⟨level, slice, allot, same⟩ := entries i
    rw [current, scan_current] at mine
    rw [same]
    change (s.scan.entries i).phase = _
    rw [scan_entries, woken_running]
    exact head.steady i mine
  obtain ⟨kept', settled', steady'⟩ := (kept.boost policy period).dispatch (settled.boost policy period) steady policy
  refine ⟨⟨kept', steady'⟩, settled', ?_⟩
  unfold State.poised
  rcases dispatch_cases (s.scan.boost policy period) policy with ⟨i, -, -, same⟩ | ⟨nobody, same⟩
  · rw [same]
    exact nofun
  · rw [same]
    exact nobody

theorem pass_idles (w : Workload n) (free : (s.poised policy period).current = none) :
    w.pass policy period s = .ok (s.poised policy period).idle := by
  unfold State.poised at free
  unfold Workload.pass
  dsimp only
  rw [free]
  rfl

theorem pass_ticks (w : Workload n) (current : (s.poised policy period).current = some i) :
    w.pass policy period s = if (w.tick policy (s.poised policy period) i).Checks
      then .ok (w.tick policy (s.poised policy period) i) else .error .assertionError := by
  unfold State.poised at current
  unfold Workload.pass
  dsimp only
  rw [current]
  rfl

/-- One pass: nobody is ready and time moves on, or the current job has a tick. -/
theorem AtHead.cases (head : AtHead w s) (policy : Policy) (period : Nat) :
    ∃ a, a = s.poised policy period ∧ AtHead w a ∧ Settled a ∧
      ((a.current = none ∧ a.ready = [] ∧ w.pass policy period s = .ok a.idle) ∨
       ∃ i, a.current = some i ∧ (a.entries i).phase = .running ∧
        w.pass policy period s = .ok (w.tick policy a i)) := by
  obtain ⟨head', settled, nobody⟩ := head.poised policy period
  refine ⟨_, rfl, head', settled, ?_⟩
  cases current : (s.poised policy period).current with
  | none => exact .inl ⟨rfl, nobody current, pass_idles w current⟩
  | some i =>
    have running := head'.steady i current
    have checks := (head'.toKept.tick settled policy current running).1.checks
    exact .inr ⟨i, rfl, running, (pass_ticks w current).trans (if_pos checks)⟩

/-- No assertion of the loop fails, and the account goes on. -/
theorem AtHead.pass (head : AtHead w s) (policy : Policy) (period : Nat) :
    ∃ t, w.pass policy period s = .ok t ∧ AtHead w t := by
  obtain ⟨a, -, head', settled, ⟨free, nobody, same⟩ | ⟨i, current, running, same⟩⟩ := head.cases policy period
  · refine ⟨_, same, head'.toKept.idles settled free nobody, fun i other => ?_⟩
    have still : a.idle.current = a.current := by
      rcases idle_cases a with ⟨_, -, -, moved⟩ | ⟨-, moved⟩ <;> rw [moved]
    exact absurd (free.symm.trans (still.symm.trans other)) nofun
  · obtain ⟨kept, steady⟩ := head'.toKept.tick settled policy current running
    exact ⟨_, same, kept, steady⟩

theorem AtHead.next (head : AtHead w s) (next : w.pass policy period s = .ok t) : AtHead w t := by
  obtain ⟨t', next', head'⟩ := head.pass policy period
  cases next.symm.trans next'
  exact head'

/-- A pass counts the dispatch that opens it. -/
theorem AtHead.next_switches (head : AtHead w s) (next : w.pass policy period s = .ok t) :
    t.switches = (s.poised policy period).switches := by
  obtain ⟨a, rfl, -, -, ⟨-, -, same⟩ | ⟨i, -, -, same⟩⟩ := head.cases policy period
  · cases next.symm.trans same
    exact idle_switches _
  · cases next.symm.trans same
    exact tick_switches w policy _ i

/-- There is a dispatch when nobody is current and somebody is ready. -/
theorem poised_switches (s : State n) (policy : Policy) (period : Nat) : (s.poised policy period).switches =
    s.switches + if s.current = none ∧ s.scan.ready ≠ [] then 1 else 0 := by
  obtain ⟨ready, -, -, current, switches, -⟩ := boost_other s.scan policy period
  rw [scan_current] at current
  rw [scan_switches] at switches
  unfold State.poised
  rcases dispatch_cases (s.scan.boost policy period) policy with ⟨i, free, chosen, same⟩ | ⟨nobody, same⟩
  · have some_ : s.scan.ready ≠ [] := by
      rw [← ready]
      exact List.ne_nil_of_mem (choose_mem chosen)
    rw [same, if_pos ⟨current.symm.trans free, some_⟩, switches]
  · have stays : ¬ (s.current = none ∧ s.scan.ready ≠ []) := fun both =>
      both.2 (ready ▸ nobody (current.trans both.1))
    rw [same, if_neg stays, switches]
    rfl

end Neonos.Mlfq
