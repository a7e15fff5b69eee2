import Neonos.MlfqHistory

/-! How long a dispatch lasts under the round robin of `mlfq.py`. The slice is
refilled when it runs out, not when a job is dispatched, so a job whose burst
is odd comes back with half a quantum. -/
namespace Neonos.Mlfq
open StableChoice WhileLoop Runs

variable {w : Workload n} {policy : Policy} {period : Nat} {s t : State n} {heads rest : List (State n)}
  {i j : Fin n} {e : Entry}

/-- The ticks a job gets from `limit` of them: its service and its next
voluntary stop can end its turn before. -/
def Workload.share (w : Workload n) (i : Fin n) (limit : Nat) (e : Entry) : Nat :=
  if w.burst i = 0 then min limit e.left
  else min (min limit e.left) (w.burst i - e.used % w.burst i)

/-- The length of the turn that begins with a dispatch, when the passes after
it are `rest`: its first tick, and those of the passes that still find a
current job. -/
def tenure (rest : List (State n)) : Nat := 1 + (rest.takeWhile fun s => s.current.isSome).length

/-- Every dispatch of the run is worth a full quantum of two ticks. -/
def Workload.FullQuanta (w : Workload n) (period : Nat) (heads : List (State n)) : Prop :=
  ∀ before s rest i, heads = before ++ s :: rest → s.current = none →
    (s.poised .rr period).current = some i →
    tenure rest = w.share i 2 ((s.poised .rr period).entries i)

/-! ### The counters of a job -/

/-- Two entries of a job with the same counters. -/
structure SameCounters (e e' : Entry) : Prop where
  left : e'.left = e.left
  used : e'.used = e.used
  slice : e'.slice = e.slice

theorem SameCounters.trans {e e' e'' : Entry} (first : SameCounters e e') (second : SameCounters e' e'') :
    SameCounters e e'' :=
  ⟨second.left.trans first.left, second.used.trans first.used, second.slice.trans first.slice⟩

theorem woken_same (now : Nat) (e : Entry) : SameCounters e (woken now e) := by
  unfold woken
  split
  · split
    · exact ⟨rfl, rfl, rfl⟩
    · exact ⟨rfl, rfl, rfl⟩
  · exact ⟨rfl, rfl, rfl⟩

theorem poised_same (s : State n) (period : Nat) (i : Fin n) :
    SameCounters (s.entries i) ((s.poised .rr period).entries i) := by
  have quiet : s.scan.boost .rr period = s.scan := if_neg (by simp)
  unfold State.poised
  rw [quiet]
  apply (woken_same s.now (s.entries i)).trans
  rw [← scan_entries]
  rcases dispatch_cases s.scan .rr with ⟨k, -, -, given⟩ | ⟨-, given⟩
  · rw [given]
    by_cases own : i = k
    · subst own
      simp only [Function.update_self]
      exact ⟨rfl, rfl, rfl⟩
    · simp only [Function.update_of_ne own]
      exact ⟨rfl, rfl, rfl⟩
  · rw [given]
    exact ⟨rfl, rfl, rfl⟩

theorem poised_kept (s : State n) (policy : Policy) (period : Nat) :
    s.current = none ∨ (s.poised policy period).current = s.current := by
  cases held : s.current with
  | none => exact .inl rfl
  | some i =>
    right
    have kept : (s.scan.boost policy period).current = some i := by
      rw [(boost_other s.scan policy period).2.2.2.1, scan_current]
      exact held
    unfold State.poised
    rcases dispatch_cases (s.scan.boost policy period) policy with ⟨k, free, -, -⟩ | ⟨-, given⟩
    · exact absurd (kept.symm.trans free) (by simp)
    · rw [given]
      exact kept

/-- A tick under round robin, as the counters of its job see it. -/
theorem renew_rr (e : Entry) : e.charge.renew .rr =
    if e.slice = 1 then { e.charge with slice := 2 } else e.charge := by
  unfold Entry.renew Entry.Demotes
  simp only [reduceCtorEq, false_and, and_false, ↓reduceIte]
  have out : e.charge.slice = 0 ↔ e.slice = 1 := by
    simp only [Entry.charge]
    omega
  simp only [out]

theorem leave_same (w : Workload n) (i : Fin n) (now : Nat) (e : Entry) :
    SameCounters e (w.leave i now e) := by
  rcases leave_cases w i now e with ⟨-, same⟩ | ⟨-, -, same⟩ | ⟨-, same⟩ <;> rw [same] <;> exact ⟨rfl, rfl, rfl⟩

theorem giveUp_same (s : State n) (i j : Fin n) : SameCounters (s.entries j) ((s.giveUp i).entries j) := by
  rcases giveUp_cases s i with ⟨-, same⟩ | ⟨-, same⟩
  · rw [same]
    by_cases own : j = i
    · subst own
      simp only [Function.update_self]
      exact ⟨rfl, rfl, rfl⟩
    · simp only [Function.update_of_ne own]
      exact ⟨rfl, rfl, rfl⟩
  · rw [same]
    exact ⟨rfl, rfl, rfl⟩

theorem spend_same (w : Workload n) (policy : Policy) (s : State n) (i j : Fin n) :
    SameCounters (if j = i then (s.entries i).charge.renew policy else s.entries j)
      ((w.spend policy s i).entries j) := by
  rw [spend_eq, scan_entries]
  refine .trans ?_ (woken_same _ _)
  by_cases own : j = i
  · subst own
    rw [charged_mine, if_pos rfl]
    exact leave_same w j _ _
  · rw [charged_others own, if_neg own]
    exact ⟨rfl, rfl, rfl⟩

theorem tick_same (w : Workload n) (policy : Policy) (s : State n) (i j : Fin n) :
    SameCounters (if j = i then (s.entries i).charge.renew policy else s.entries j)
      ((w.tick policy s i).entries j) := by
  rcases tick_cases w policy s i with stopped | ⟨on, -⟩
  · rw [stopped]
    exact (spend_same w policy s i j).trans (giveUp_same _ i j)
  · rw [on]
    exact spend_same w policy s i j

/-! ### Half a slice -/

/-- The slice follows the service a job has had, two ticks at a time. A job off
the processor is in the middle of a slice only after a voluntary stop. -/
structure Halved (w : Workload n) (s : State n) : Prop where
  slice : ∀ i, (s.entries i).slice = 2 - ((s.entries i).used % 2 : Nat)
  off : ∀ i, s.current ≠ some i → (s.entries i).left ≠ 0 → (s.entries i).used % 2 = 1 →
    w.Voluntary i (s.entries i)
  on : ∀ i, s.current = some i → ¬ w.Voluntary i (s.entries i)

theorem voluntary_same {e e' : Entry} (same : SameCounters e e') : w.Voluntary i e' ↔ w.Voluntary i e := by
  unfold Workload.Voluntary
  rw [same.used]

/-- The counters after a tick, given the slice it is taken from. -/
theorem ticked_counters (slice : e.slice = 2 - (e.used % 2 : Nat)) :
    (e.charge.renew .rr).left = e.left - 1 ∧ (e.charge.renew .rr).used = e.used + 1 ∧
      (e.charge.renew .rr).slice = 2 - ((e.used + 1) % 2 : Nat) := by
  rw [renew_rr]
  split
  · rename_i last
    refine ⟨rfl, rfl, ?_⟩
    dsimp only
    omega
  · rename_i more
    refine ⟨rfl, rfl, ?_⟩
    change e.slice - 1 = _
    omega

/-- A turn ends under round robin with the service, at a voluntary stop, or
with the slice. -/
def Workload.Stops (w : Workload n) (i : Fin n) (e : Entry) : Prop :=
  e.left ≤ 1 ∨ w.Voluntary i e.charge ∨ e.used % 2 = 1

theorem tick_stops (w : Workload n) (current : s.current = some i)
    (slice : (s.entries i).slice = 2 - ((s.entries i).used % 2 : Nat)) :
    (w.tick .rr s i).current = none ∧ w.Stops i (s.entries i) ∨
      (w.tick .rr s i).current = some i ∧ ¬ w.Stops i (s.entries i) := by
  have spent : (w.spend .rr s i).current = some i := by
    rw [spend_eq, scan_current]
    exact current
  have calm : ¬ (w.spend .rr s i).Preempts .rr i := by simp [State.Preempts]
  have empty : (s.entries i).charge.left = 0 ↔ (s.entries i).left ≤ 1 := by
    simp only [Entry.charge]
    omega
  have expired : (s.entries i).charge.Expired .rr ↔ (s.entries i).used % 2 = 1 := by
    simp only [Entry.Expired, Entry.Demotes, Entry.charge, reduceCtorEq, false_and, and_false, false_or]
    omega
  have same : ((s.entries i).charge.left = 0 ∨ w.Voluntary i (s.entries i).charge ∨
      (s.entries i).charge.Expired .rr ∨ (w.spend .rr s i).Preempts .rr i) ↔
      w.Stops i (s.entries i) := by
    unfold Workload.Stops
    rw [empty, expired]
    tauto
  rw [tick_eq]
  by_cases stops : w.Stops i (s.entries i)
  · rw [if_pos (same.mpr stops)]
    exact .inl ⟨giveUp_current _ i, stops⟩
  · rw [if_neg (mt same.mp stops)]
    exact .inr ⟨spent, stops⟩

theorem start_halved (w : Workload n) (period : Nat) : Halved w (w.start period) := by
  refine ⟨fun i => rfl, fun i _ _ odd => ?_, fun i mine => ?_⟩
  · simp [Workload.start] at odd
  · simp [Workload.start] at mine

theorem Halved.poised (halved : Halved w s) (period : Nat) (i : Fin n) :
    ((s.poised .rr period).entries i).slice =
      2 - (((s.poised .rr period).entries i).used % 2 : Nat) := by
  have same := poised_same s period i
  rw [same.slice, same.used]
  exact halved.slice i

theorem Halved.next (halved : Halved w s) (head : AtHead w s) (next : w.pass .rr period s = .ok t) :
    Halved w t := by
  have kept (j : Fin n) := poised_same s period j
  have slices := halved.poised period
  obtain ⟨a, rfl, -, -, ⟨free, -, moved⟩ | ⟨i, current, running, ticks⟩⟩ := head.cases .rr period
  · cases moved.symm.trans next
    have still : (s.poised .rr period).idle.current = none ∧
        (s.poised .rr period).idle.entries = (s.poised .rr period).entries := by
      rcases idle_cases (s.poised .rr period) with ⟨_, -, -, same⟩ | ⟨-, same⟩ <;> rw [same] <;>
        exact ⟨free, rfl⟩
    have before : s.current = none := by
      rcases poised_kept s .rr period with idle | same
      · exact idle
      · rw [← same]
        exact free
    refine ⟨fun j => ?_, fun j _ => ?_, fun j mine => ?_⟩
    · rw [still.2]
      exact slices j
    · rw [still.2, voluntary_same (kept j), (kept j).left, (kept j).used]
      exact halved.off j (by simp [before])
    · exact absurd (still.1.symm.trans mine) (by simp)
  · cases ticks.symm.trans next
    have after (j : Fin n) := tick_same w .rr (s.poised .rr period) i j
    have mine := after i
    rw [if_pos rfl] at mine
    obtain ⟨left, used, slice⟩ := ticked_counters (slices i)
    have charged : w.Voluntary i ((w.tick .rr (s.poised .rr period) i).entries i) ↔
        w.Voluntary i ((s.poised .rr period).entries i).charge := by
      unfold Workload.Voluntary
      rw [mine.used, used]
      rfl
    have elsewhere (j : Fin n) (own : j ≠ i) : s.current ≠ some j := by
      rcases poised_kept s .rr period with idle | same
      · simp [idle]
      · rw [← same, current]
        exact fun other => own (Option.some.inj other).symm
    refine ⟨fun j => ?_, fun j off => ?_, fun j on => ?_⟩
    · by_cases own : j = i
      · subst own
        rw [mine.slice, mine.used, used]
        exact slice
      · have same := after j
        rw [if_neg own] at same
        rw [same.slice, same.used]
        exact slices j
    · by_cases own : j = i
      · subst own
        rw [mine.left, left, mine.used, used, charged]
        intro more odd
        rcases tick_stops w current (slices j) with ⟨-, stops⟩ | ⟨stays, -⟩
        · rcases stops with last | voluntary | second
          · omega
          · exact voluntary
          · omega
        · exact absurd stays off
      · have same := after j
        rw [if_neg own] at same
        have whole := (kept j).trans same
        rw [voluntary_same whole, whole.left, whole.used]
        exact halved.off j (elsewhere j own)
    · rcases tick_stops w current (slices i) with ⟨idle, -⟩ | ⟨stays, goes⟩
      · exact absurd (idle.symm.trans on) (by simp)
      · obtain rfl : i = j := Option.some.inj (stays.symm.trans on)
        rw [charged]
        exact fun voluntary => goes (.inr (.inl voluntary))

theorem passes_halved (run : w.Passes .rr period heads t) : Halved w t := by
  induction run with
  | nil => exact start_halved w period
  | snoc run last ih => exact ih.next (passes_head run) last.2.2

/-! ### The length of a turn -/

/-- One more tick towards the next multiple of a burst. -/
theorem next_multiple (used : Nat) (positive : 0 < burst) :
    ((used + 1) % burst = 0 ∧ burst - used % burst = 1) ∨
      ((used + 1) % burst = used % burst + 1 ∧ used % burst + 1 < burst) := by
  have inside := Nat.mod_lt used positive
  have split : used + 1 = burst * (used / burst) + (used % burst + 1) := by
    rw [← Nat.add_assoc, Nat.div_add_mod]
  have shifted : (used + 1) % burst = (used % burst + 1) % burst := by
    conv_lhs => rw [split]
    rw [Nat.mul_add_mod]
  by_cases last : used % burst + 1 = burst
  · left
    rw [shifted, last, Nat.mod_self]
    omega
  · right
    have more : used % burst + 1 < burst := by omega
    rw [shifted, Nat.mod_eq_of_lt more]
    exact ⟨rfl, more⟩

theorem share_last (proper : e.left ≠ 0) (stops : w.Stops i e) : w.share i (2 - e.used % 2) e = 1 := by
  unfold Workload.share
  unfold Workload.Stops Workload.Voluntary at stops
  by_cases free : w.burst i = 0
  · rw [if_pos free]
    simp only [free, ne_eq, not_true_eq_false, false_and, false_or] at stops
    omega
  · rw [if_neg free]
    change e.left ≤ 1 ∨ (w.burst i ≠ 0 ∧ (e.used + 1) % w.burst i = 0) ∨ e.used % 2 = 1 at stops
    have inside := Nat.mod_lt e.used (Nat.pos_of_ne_zero free)
    rcases next_multiple e.used (Nat.pos_of_ne_zero free) with ⟨-, one⟩ | ⟨other, more⟩
    · omega
    · have apart : ¬ (e.used + 1) % w.burst i = 0 := by omega
      simp only [apart, and_false, false_or] at stops
      omega

theorem share_more {e e' : Entry} (goes : ¬ w.Stops i e) (left : e'.left = e.left - 1)
    (used : e'.used = e.used + 1) :
    w.share i (2 - e.used % 2) e = 1 + w.share i (2 - e'.used % 2) e' := by
  unfold Workload.share
  unfold Workload.Stops Workload.Voluntary at goes
  rw [left, used]
  by_cases free : w.burst i = 0
  · rw [if_pos free, if_pos free]
    omega
  · rw [if_neg free, if_neg free]
    change ¬ (e.left ≤ 1 ∨ (w.burst i ≠ 0 ∧ (e.used + 1) % w.burst i = 0) ∨ e.used % 2 = 1) at goes
    rcases next_multiple e.used (Nat.pos_of_ne_zero free) with ⟨zero, -⟩ | ⟨next, more⟩
    · exact absurd (.inr (.inl ⟨free, zero⟩)) goes
    · rw [next]
      omega

/-- A pass that gives a job a tick, and what is left of the job's turn. -/
theorem turn_left (head : AtHead w s) (halved : Halved w s)
    (current : (s.poised .rr period).current = some i) (next : w.pass .rr period s = .ok t) :
    (t.current = none ∧
        w.share i (2 - ((s.poised .rr period).entries i).used % 2) ((s.poised .rr period).entries i) = 1) ∨
      (t.current = some i ∧
        w.share i (2 - ((s.poised .rr period).entries i).used % 2) ((s.poised .rr period).entries i) =
          1 + w.share i (2 - (t.entries i).used % 2) (t.entries i)) := by
  have slice := halved.poised period i
  obtain ⟨a, rfl, head', -, ⟨free, -⟩ | ⟨j, held, running, ticks⟩⟩ := head.cases .rr period
  · exact absurd (free.symm.trans current) (by simp)
  · obtain rfl : i = j := Option.some.inj (current.symm.trans held)
    cases ticks.symm.trans next
    have proper := (head'.fits i).more (by simp [running]) (by simp [running])
    have same := tick_same w .rr (s.poised .rr period) i i
    rw [if_pos rfl] at same
    obtain ⟨left, used, -⟩ := ticked_counters slice
    rcases tick_stops w current slice with ⟨idle, stops⟩ | ⟨stays, goes⟩
    · exact .inl ⟨idle, share_last proper stops⟩
    · exact .inr ⟨stays, share_more goes (same.left.trans left) (same.used.trans used)⟩

/-- The passes that still find a current job, from any head on. -/
theorem stay_length (run : Run (Turn State.Going (w.pass .rr period)) s heads t) (stopped : ¬ t.Going)
    (head : AtHead w s) (halved : Halved w s) (undisturbed : Undisturbed .rr s) :
    (s.current = none → (heads.takeWhile fun s => s.current.isSome).length = 0) ∧
      ∀ i, s.current = some i → (heads.takeWhile fun s => s.current.isSome).length =
        w.share i (2 - (s.entries i).used % 2) (s.entries i) := by
  induction heads generalizing s with
  | nil =>
    obtain rfl := run.of_nil
    refine ⟨fun _ => rfl, fun i current => absurd ⟨i, ?_⟩ stopped⟩
    exact (head.fits i).unended.mpr (by simp [head.steady i current])
  | cons first heads ih =>
    obtain ⟨m, ⟨rfl, -, next⟩, rest⟩ := run.uncons
    obtain ⟨none_, some_⟩ := ih rest (head.next next) (halved.next head next) (head.next_undisturbed next)
    refine ⟨fun free => by simp [free], fun i current => ?_⟩
    have same : first.poised .rr period = first := undisturbed.poised current
    have left := turn_left head halved (same ▸ current) next
    rw [same] at left
    rw [List.takeWhile_cons_of_pos (by simp [current]), List.length_cons]
    rcases left with ⟨idle, one⟩ | ⟨stays, more⟩
    · rw [none_ idle, one]
    · rw [some_ i stays, more, Nat.add_comm]

/-- A dispatch lasts for what is left of the slice, the service and the burst. -/
theorem tenure_eq (complete : w.Schedules .rr period (before ++ s :: rest) t)
    (current : (s.poised .rr period).current = some i) :
    tenure rest = w.share i (2 - ((s.poised .rr period).entries i).used % 2)
      ((s.poised .rr period).entries i) := by
  obtain ⟨earlier, -, m, next, later⟩ := passes_taken complete.1
  have head := passes_head earlier
  have halved := passes_halved earlier
  obtain ⟨none_, some_⟩ := stay_length later complete.2 (head.next next) (halved.next head next)
    (head.next_undisturbed next)
  unfold tenure
  rcases turn_left head halved current next with ⟨idle, one⟩ | ⟨stays, more⟩
  · rw [none_ idle, one]
  · rw [some_ i stays, more]

/-! ### When every dispatch is worth a full quantum -/

/-- A job that is dispatched in the middle of a slice and could use all of one. -/
def Workload.LeftOver (w : Workload n) (i : Fin n) : Prop :=
  w.burst i % 2 = 1 ∧ 3 ≤ w.burst i ∧ w.burst i + 2 ≤ w.service i

/-- A job gets its service one tick at a time, so it passes through every amount. -/
theorem passes_through (run : w.Passes .rr period heads t) (amount : Nat) (i : Fin n)
    (more : amount < (t.entries i).used) : ∃ before s rest, heads = before ++ s :: rest ∧
      (s.poised .rr period).current = some i ∧ ((s.poised .rr period).entries i).used = amount := by
  induction run with
  | nil => simp [Workload.start] at more
  | @snoc heads m first t run last ih =>
    obtain ⟨rfl, -, next⟩ := last
    by_cases earlier : amount < (first.entries i).used
    · obtain ⟨before, s, rest, rfl, found⟩ := ih earlier
      exact ⟨before, s, rest ++ [first], by simp, found⟩
    · have same := poised_same first period i
      obtain ⟨a, rfl, -, -, ⟨-, -, moved⟩ | ⟨j, current, -, ticks⟩⟩ := (passes_head run).cases .rr period
      · cases moved.symm.trans next
        have still : (first.poised .rr period).idle.entries = (first.poised .rr period).entries := by
          rcases idle_cases (first.poised .rr period) with ⟨_, -, -, same⟩ | ⟨-, same⟩ <;> rw [same]
        rw [still, same.used] at more
        exact absurd more earlier
      · cases ticks.symm.trans next
        have after := tick_same w .rr (first.poised .rr period) j i
        by_cases own : i = j
        · subst own
          rw [if_pos rfl] at after
          have used : (((first.poised .rr period).entries i).charge.renew .rr).used =
              ((first.poised .rr period).entries i).used + 1 := by
            obtain ⟨_, _, _, shape⟩ := renew_eq .rr ((first.poised .rr period).entries i)
            rw [shape]
          rw [after.used, used, same.used] at more
          refine ⟨heads, first, [], rfl, current, ?_⟩
          rw [same.used]
          omega
        · rw [if_neg own] at after
          rw [after.used, same.used] at more
          exact absurd more earlier

/-- The second turn of a job with an odd burst is cut to one tick. -/
theorem leftOver_short (complete : w.Schedules .rr period heads t) (cut : w.LeftOver i) :
    ∃ before s rest, heads = before ++ s :: rest ∧ s.current = none ∧
      (s.poised .rr period).current = some i ∧ tenure rest = 1 ∧
      w.share i 2 ((s.poised .rr period).entries i) = 2 := by
  obtain ⟨odd, large, long⟩ := cut
  have ended := (passes_head complete.1).ended complete.2
  have whole : (t.entries i).used = w.service i := by
    rw [(ended.fits i).used, ended.whole i]
  obtain ⟨before, s, rest, rfl, current, used⟩ := passes_through complete.1 (w.burst i) i (by omega)
  obtain ⟨earlier, -⟩ := passes_taken complete.1
  have same := poised_same s period i
  have free : s.current = none := by
    cases held : s.current with
    | none => rfl
    | some j =>
      have still : s.poised .rr period = s := (passes_undisturbed earlier).poised held
      rw [still] at current used
      have stop := (passes_halved earlier).on i current
      rw [Workload.Voluntary, used, Nat.mod_self] at stop
      exact absurd ⟨by omega, rfl⟩ stop
  have left := (((passes_head earlier).poised .rr period).1.fits i).left
  refine ⟨before, s, rest, rfl, free, current, ?_, ?_⟩
  · rw [tenure_eq complete current, used, odd, Workload.share, if_neg (by omega), used, Nat.mod_self]
    omega
  · rw [Workload.share, if_neg (by omega), used, Nat.mod_self]
    omega

/-- A dispatch in the middle of a slice costs nothing but in that case. -/
theorem share_whole (account : e.left + e.used = w.service i)
    (stop : e.used % 2 = 1 → w.Voluntary i e) (whole : ¬ w.LeftOver i) :
    w.share i (2 - e.used % 2) e = w.share i 2 e := by
  rcases Nat.mod_two_eq_zero_or_one e.used with even | odd
  · rw [even]
  obtain ⟨some_, divides⟩ := stop odd
  obtain ⟨k, used⟩ := Nat.dvd_of_mod_eq_zero divides
  have odd' : w.burst i % 2 = 1 := by
    by_contra even
    have zero : w.burst i % 2 = 0 := by omega
    rw [used, Nat.mul_mod, zero] at odd
    simp at odd
  have past : w.burst i ≤ e.used := by
    apply Nat.le_of_dvd (by omega)
    exact Nat.dvd_of_mod_eq_zero divides
  unfold Workload.LeftOver at whole
  rw [odd, Workload.share, Workload.share, if_neg some_, if_neg some_, divides]
  omega

theorem fullQuanta_iff (complete : w.Schedules .rr period heads t) :
    w.FullQuanta period heads ↔ ∀ i, ¬ w.LeftOver i := by
  constructor
  · intro full i cut
    obtain ⟨before, s, rest, shape, free, current, one, two⟩ := leftOver_short complete cut
    have both := full before s rest i shape free current
    omega
  · rintro whole before s rest i rfl free current
    obtain ⟨earlier, -⟩ := passes_taken complete.1
    have head := ((passes_head earlier).poised .rr period).1
    have same := poised_same s period i
    have running := head.steady i current
    have proper := (head.fits i).more (by simp [running]) (by simp [running])
    rw [tenure_eq complete current]
    apply share_whole (head.fits i).left _ (whole i)
    rw [voluntary_same same, same.used]
    refine (passes_halved earlier).off i (by simp [free]) ?_
    rw [← same.left]
    exact proper

/-- The quantum of the baseline. In the complete round-robin run of every
workload `simulate` accepts, each dispatch lasts two ticks, or until the job
finishes or stops by itself, exactly when no job with an odd burst of three or
more has two ticks to run after its first burst. -/
theorem full_quantum_iff (jobs : Fin n → Job) (period : Nat) (accepted : Accepted jobs)
    (positive : 0 < period) :
    ∃ w heads t, Holds w jobs ∧ w.Schedules .rr period heads t ∧
      Simulates jobs .rr period (t.outcome w) ∧
      (w.FullQuanta period heads ↔ ∀ i, ¬ (Odd (jobs i).burst ∧ 3 ≤ (jobs i).burst ∧
        (jobs i).burst + 2 ≤ (jobs i).service)) := by
  obtain ⟨w, valid, holds⟩ := validate_accepts accepted
  obtain ⟨heads, t, complete, returns⟩ := schedules w .rr period
  refine ⟨w, heads, t, holds, complete, Returns.simulate valid positive returns, ?_⟩
  rw [fullQuanta_iff complete]
  apply forall_congr'
  intro i
  unfold Workload.LeftOver
  rw [← holds.burst, ← holds.service, Int.odd_iff]
  omega

theorem full_quantum_iff_course : ∃ w heads t, Holds w course ∧ w.Schedules .rr 40 heads t ∧
    w.FullQuanta 40 heads := by
  obtain ⟨w, heads, t, holds, complete, -, full⟩ := full_quantum_iff course 40 course_accepted (by decide)
  exact ⟨w, heads, t, holds, complete, full.mpr (by decide)⟩

/-- A job with a burst of three and five ticks of service. -/
def triple : Fin 1 → Job := ![⟨"triple", 0, 5, 3, 0⟩]

theorem triple_accepted : Accepted triple := ⟨by decide, by decide⟩

/-- Alone on the machine, it is given one tick at its second dispatch though it
could use two. -/
theorem triple_cut : ¬ ∀ w heads t, Holds w triple → w.Schedules .rr 40 heads t →
    w.FullQuanta 40 heads := by
  intro claim
  obtain ⟨w, -, holds⟩ := validate_accepts triple_accepted
  obtain ⟨heads, t, complete, -⟩ := schedules w .rr 40
  have burst : (w.burst 0 : Int) = 3 := holds.burst 0
  have service : (w.service 0 : Int) = 5 := holds.service 0
  refine (fullQuanta_iff complete).mp (claim w heads t holds complete) 0 ?_
  unfold Workload.LeftOver
  omega

end Neonos.Mlfq
