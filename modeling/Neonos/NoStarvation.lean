import Neonos.MlfqTrace

/-! No job of the simulator stays ready for long: until the next boost it may be
passed over, and from then on the jobs ahead of it only become fewer. -/
namespace Neonos.Mlfq
open StableChoice WhileLoop

variable {w : Workload n} {policy : Policy} {period : Nat} {rest : Int} {s t : State n} {i j : Fin n} {e : Entry}

/-- The bound on the time a job is ready before it runs. -/
def patience (n : Nat) (policy : Policy) (period : Nat) : Nat :=
  (match policy with
    | .rr => 0
    | .mlfq => period) + 2 * (n - 1)

/-- Ready since the last boost. -/
def Early (period : Nat) (s : State n) (i : Fin n) : Prop :=
  s.nextBoost ≤ (s.entries i).readyAt + period ∧ s.now ≤ (s.entries i).readyAt + period

/-- On the top level behind `front`, each of which has a slice of two ticks, and
behind what is left of the current slice. -/
def Due (policy : Policy) (period : Nat) (rest : Int) (s : State n) (front : List (Fin n)) (i : Fin n) : Prop :=
  (s.entries i).level = 0 ∧ (∀ k ∈ front, (s.entries k).level = 0) ∧
    (s.now : Int) + 2 * front.length + rest ≤ (s.entries i).readyAt + patience n policy period

/-- Every ready job waits for the boost or is due; `rest` is what is left of the
current slice. -/
structure Waits (policy : Policy) (period : Nat) (rest : Int) (s : State n) : Prop where
  slices : ∀ i, (s.entries i).done = none →
    1 ≤ (s.entries i).slice ∧ ((s.entries i).level = 0 → (s.entries i).slice ≤ 2)
  flat : policy = .rr → ∀ i, (s.entries i).level = 0
  near : s.nextBoost ≤ s.now + period
  waiting : ∀ front i back, s.ready = front ++ i :: back →
    (policy = .mlfq ∧ Early period s i) ∨ Due policy period rest s front i
  past : ∀ i, (s.entries i).maxWait ≤ patience n policy period

theorem start_waits (w : Workload n) (policy : Policy) (period : Nat) : Waits policy period 0 (w.start period) := by
  refine ⟨fun i _ => ⟨?_, fun _ => le_rfl⟩, fun _ _ => rfl, ?_, fun front i back shape => ?_, fun i => Nat.zero_le _⟩
  · change (1 : Int) ≤ 2
    omega
  · change period ≤ 0 + period
    omega
  · exact absurd shape.symm (List.append_ne_nil_of_right_ne_nil front (List.cons_ne_nil i back))

theorem Waits.less (waits : Waits policy period rest s) (less : rest' ≤ rest) : Waits policy period rest' s := by
  refine ⟨waits.slices, waits.flat, waits.near, fun front i back shape => ?_, waits.past⟩
  rcases waits.waiting front i back shape with early | ⟨level, levels, bound⟩
  · exact .inl early
  · exact .inr ⟨level, levels, by omega⟩

/-- Jobs that become ready now queue behind all others. -/
theorem Waits.joined (waits : Waits policy period rest s) (ready : t.ready = s.ready ++ added) (now : t.now = s.now)
    (nextBoost : t.nextBoost = s.nextBoost)
    (old : ∀ k ∈ s.ready, (t.entries k).level = (s.entries k).level ∧ (t.entries k).readyAt = (s.entries k).readyAt)
    (new : ∀ k ∈ added, (t.entries k).readyAt = s.now) (flat : policy = .rr → ∀ k, (t.entries k).level = 0)
    (room : policy = .rr → 2 * (t.ready.length : Int) + rest ≤ 2 * n) (shape : t.ready = front ++ i :: back) :
    (policy = .mlfq ∧ Early period t i) ∨ Due policy period rest t front i := by
  have joins (among : i ∈ added) : (policy = .mlfq ∧ Early period t i) ∨ Due policy period rest t front i := by
    have since := new i among
    have near := waits.near
    cases policy with
    | mlfq =>
      refine .inl ⟨rfl, ?_, ?_⟩
      · rw [nextBoost, since]
        exact near
      · rw [now, since]
        exact Nat.le_add_right s.now period
    | rr =>
      refine .inr ⟨flat rfl i, fun k _ => flat rfl k, ?_⟩
      have long : t.ready.length = front.length + 1 + back.length := by
        rw [shape, List.length_append, List.length_cons]
        omega
      have space := room rfl
      rw [since, now]
      unfold patience
      simp only
      omega
  rw [ready] at shape
  rcases List.append_eq_append_iff.mp shape with ⟨between, -, rfl⟩ | ⟨between, split, behind⟩
  · exact joins (List.mem_append_right between List.mem_cons_self)
  · cases between with
    | nil =>
      rw [List.nil_append] at behind
      exact joins (behind ▸ List.mem_cons_self)
    | cons first between =>
      rw [List.cons_append] at behind
      obtain ⟨rfl, -⟩ := List.cons.inj behind
      have inside (k : Fin n) (member : k ∈ front ++ [i]) : k ∈ s.ready := by
        rw [split]
        rcases List.mem_append.mp member with before | same
        · exact List.mem_append_left _ before
        · rw [List.mem_singleton.mp same]
          exact List.mem_append_right front List.mem_cons_self
      obtain ⟨level, since⟩ := old i (inside i (List.mem_append_right front (List.mem_singleton_self i)))
      rcases waits.waiting front i between split with ⟨mlfq, early, soon⟩ | ⟨top, tops, bound⟩
      · refine .inl ⟨mlfq, ?_, ?_⟩
        · rw [nextBoost, since]
          exact early
        · rw [now, since]
          exact soon
      · refine .inr ⟨level.trans top, fun k member => ?_, ?_⟩
        · rw [(old k (inside k (List.mem_append_left [i] member))).1]
          exact tops k member
        · rw [now, since]
          exact bound

/-! ### Parts of a pass -/

theorem woken_counters (now : Nat) (e : Entry) : (woken now e).level = e.level ∧ (woken now e).slice = e.slice ∧
    (woken now e).maxWait = e.maxWait ∧ ((woken now e).done = none → e.done = none) := by
  unfold woken
  split
  · split
    · exact ⟨rfl, rfl, rfl, nofun⟩
    · exact ⟨rfl, rfl, rfl, id⟩
  · exact ⟨rfl, rfl, rfl, id⟩

theorem Waits.scan (waits : Waits policy period rest s) (kept : Kept w s)
    (room : policy = .rr → 2 * (s.scan.ready.length : Int) + rest ≤ 2 * n) : Waits policy period rest s.scan := by
  have flat : policy = .rr → ∀ k, (s.scan.entries k).level = 0 := by
    intro rr k
    rw [scan_entries, (woken_counters s.now (s.entries k)).1]
    exact waits.flat rr k
  refine ⟨fun i undone => ?_, flat, ?_, fun front i back => ?_, fun i => ?_⟩
  · rw [scan_entries] at undone ⊢
    obtain ⟨level, slice, -, earlier⟩ := woken_counters s.now (s.entries i)
    rw [level, slice]
    exact waits.slices i (earlier undone)
  · rw [scan_nextBoost, scan_now]
    exact waits.near
  · refine waits.joined (scan_ready s) (scan_now s) (scan_nextBoost s) (fun k member => ?_) (fun k rises => ?_) flat room
    · rw [scan_entries, woken_awake (kept.awake member)]
      exact ⟨rfl, rfl⟩
    · have rises : Rises s.now (s.entries k) := by simpa using (List.mem_filter.mp rises).2
      rw [scan_entries, woken, if_pos rises.1, if_neg rises.2]
  · rw [scan_entries, (woken_counters s.now (s.entries i)).2.2.1]
    exact waits.past i

/-- The end of a turn; the job that goes back is the last of the line. -/
theorem Waits.giveUp (waits : Waits policy period 0 s) (kept : Kept w s) (i : Fin n) :
    Waits policy period 0 (s.giveUp i) := by
  rcases giveUp_cases s i with ⟨running, same⟩ | ⟨-, same⟩
  · rw [same]
    have away : i ∉ s.ready := by simp [kept.ready, running]
    have distinct : (s.ready ++ [i]).Nodup :=
      List.Nodup.append kept.distinct (List.nodup_singleton i) (by simpa using away)
    have flat : policy = .rr → ∀ k, (Function.update s.entries i
        { s.entries i with phase := .ready, readyAt := s.now } k).level = 0 := by
      intro rr k
      by_cases own : k = i
      · subst own
        rw [Function.update_self]
        exact waits.flat rr k
      · rw [Function.update_of_ne own]
        exact waits.flat rr k
    refine ⟨fun k undone => ?_, flat, waits.near, fun front k back => ?_, fun k => ?_⟩
    · by_cases own : k = i
      · subst own
        simp only [Function.update_self] at undone ⊢
        exact waits.slices k undone
      · simp only [Function.update_of_ne own] at undone ⊢
        exact waits.slices k undone
    · refine waits.joined rfl rfl rfl (fun k member => ?_) (fun k last => ?_) flat fun _ => ?_
      · have other : k ≠ i := fun same => away (same ▸ member)
        simp only [Function.update_of_ne other, and_self]
      · rw [List.mem_singleton.mp last]
        simp only [Function.update_self]
      · have count := List.Nodup.length_le_card distinct
        rw [Fintype.card_fin] at count
        change 2 * ((s.ready ++ [i]).length : Int) + 0 ≤ 2 * n
        omega
    · by_cases own : k = i
      · subst own
        simp only [Function.update_self]
        exact waits.past k
      · simp only [Function.update_of_ne own]
        exact waits.past k
  · rw [same]
    exact ⟨waits.slices, waits.flat, waits.near, waits.waiting, waits.past⟩

theorem Kept.undone (kept : Kept w s) (member : i ∈ s.ready) : (s.entries i).done = none := by
  apply (kept.fits i).unended.mpr
  rw [(kept.ready i).mp member]
  nofun

/-- The jobs ahead of a ready job are fewer than all others. -/
theorem Kept.ahead (kept : Kept w s) (shape : s.ready = front ++ i :: back) : front.length ≤ n - 1 := by
  have count := List.Nodup.length_le_card kept.distinct
  rw [Fintype.card_fin, shape, List.length_append, List.length_cons] at count
  omega

/-- With the boost every ready job is due. -/
theorem Waits.boost (waits : Waits policy period rest s) (kept : Kept w s)
    (free : policy = .mlfq → s.nextBoost ≤ s.now → rest ≤ 0) :
    Waits policy period rest (s.boost policy period) := by
  unfold State.boost
  split
  · rename_i due
    have none := free due.1 due.2
    have lifted (k : Fin n) (member : k ∈ s.ready) : (if (s.entries k).done = Option.none
        then { s.entries k with level := 0, slice := 2, allot := 4 } else s.entries k).level = 0 := by
      rw [if_pos (kept.undone member)]
    refine ⟨fun i undone => ?_, fun rr => ?_, ?_, fun front i back shape => .inr ⟨?_, fun k among => ?_, ?_⟩, fun i => ?_⟩
    · dsimp only at undone ⊢
      split
      · refine ⟨?_, fun _ => le_rfl⟩
        change (1 : Int) ≤ 2
        omega
      · rename_i stopped
        rw [if_neg stopped] at undone
        exact absurd undone stopped
    · rw [due.1] at rr
      cases rr
    · change (s.now / period + 1) * period ≤ s.now + period
      rw [Nat.add_mul, Nat.one_mul]
      exact Nat.add_le_add_right (Nat.div_mul_le_self s.now period) period
    · apply lifted i
      rw [shape]
      exact List.mem_append_right front List.mem_cons_self
    · apply lifted k
      rw [shape]
      exact List.mem_append_left _ among
    · have member : i ∈ s.ready := by
        rw [shape]
        exact List.mem_append_right front List.mem_cons_self
      dsimp only
      rw [if_pos (kept.undone member)]
      have ahead := kept.ahead shape
      rcases waits.waiting front i back shape with ⟨-, -, soon⟩ | ⟨-, -, bound⟩
      · rw [due.1]
        unfold patience
        simp only
        omega
      · exact bound
    · dsimp only
      split <;> exact waits.past i
  · exact waits

/-- What a dispatch takes out of the line: everybody before it has a greater level. -/
theorem choose_splits (chosen : s.choose policy = some i) : ∃ front back, s.ready = front ++ i :: back ∧
    i ∉ front ∧ ∀ k ∈ front, (s.entries i).level < (s.entries k).level := by
  cases policy with
  | mlfq =>
    obtain ⟨front, back, shape, before, -⟩ := least_splits chosen
    exact ⟨front, back, shape, fun member => lt_irrefl _ (before i member), before⟩
  | rr =>
    obtain ⟨back, shape⟩ := List.head?_eq_some_iff.mp chosen
    exact ⟨[], back, shape, List.not_mem_nil, fun k member => absurd member List.not_mem_nil⟩

/-- What is left of the slice of the current job. -/
def slack (s : State n) : Int :=
  match s.current with
  | some i => (s.entries i).slice
  | none => 0

/-- The line without the job that was taken from it. -/
theorem Waits.taken (waits : Waits policy period 0 s) (kept : Kept w s) (shape : s.ready = front ++ i :: back)
    (fresh : i ∉ front) (lower : ∀ k ∈ front, (s.entries i).level < (s.entries k).level)
    (others : ∀ k, k ≠ i → t.entries k = s.entries k) (now : t.now = s.now) (nextBoost : t.nextBoost = s.nextBoost)
    (shape' : front ++ back = front' ++ j :: back') :
    (policy = .mlfq ∧ Early period t j) ∨ Due policy period (s.entries i).slice t front' j := by
  have distinct := kept.distinct
  rw [shape] at distinct
  have apart : i ∉ back := (List.nodup_cons.mp (List.nodup_append.mp distinct).2.1).1
  have early (mine : j ≠ i) (waiting : policy = .mlfq ∧ Early period s j) : policy = .mlfq ∧ Early period t j := by
    obtain ⟨mlfq, early, soon⟩ := waiting
    refine ⟨mlfq, ?_, ?_⟩
    · rw [nextBoost, others j mine]
      exact early
    · rw [now, others j mine]
      exact soon
  have behind (between : List (Fin n)) (front'_eq : front' = front ++ between) (back_eq : back = between ++ j :: back') :
      (policy = .mlfq ∧ Early period t j) ∨ Due policy period (s.entries i).slice t front' j := by
    subst front'_eq back_eq
    have mine : j ≠ i := by
      rintro rfl
      exact apart (List.mem_append_right between List.mem_cons_self)
    have whole : s.ready = (front ++ i :: between) ++ j :: back' := by
      rw [shape, List.append_assoc, List.cons_append]
    rcases waits.waiting _ j back' whole with waiting | ⟨top, tops, bound⟩
    · exact .inl (early mine waiting)
    · have taken : i ∈ s.ready := by
        rw [shape]
        exact List.mem_append_right front List.mem_cons_self
      have short := (waits.slices i (kept.undone taken)).2 (tops i (List.mem_append_right front List.mem_cons_self))
      refine .inr ⟨by rw [others j mine]; exact top, fun k among => ?_, ?_⟩
      · have other : k ≠ i := by
          rintro rfl
          rcases List.mem_append.mp among with before | after
          · exact fresh before
          · exact apart (List.mem_append_left _ after)
        rw [others k other]
        apply tops k
        rcases List.mem_append.mp among with before | after
        · exact List.mem_append_left _ before
        · exact List.mem_append_right front (List.mem_cons_of_mem i after)
      · rw [others j mine, now]
        simp only [List.length_append, List.length_cons] at bound ⊢
        omega
  rcases List.append_eq_append_iff.mp shape' with ⟨between, front'_eq, back_eq⟩ | ⟨between, split, back_eq⟩
  · exact behind between front'_eq back_eq
  · cases between with
    | nil =>
      rw [List.append_nil] at split
      exact behind [] (by rw [List.append_nil, split]) back_eq.symm
    | cons first between =>
      obtain ⟨rfl, -⟩ := List.cons.inj back_eq
      have among : j ∈ front := by
        rw [split]
        exact List.mem_append_right front' List.mem_cons_self
      have mine : j ≠ i := fun same => fresh (same ▸ among)
      have whole : s.ready = front' ++ j :: (between ++ i :: back) := by
        rw [shape, split, List.append_assoc, List.cons_append]
      rcases waits.waiting front' j _ whole with waiting | ⟨top, -, -⟩
      · exact .inl (early mine waiting)
      · have less := lower j among
        rw [top] at less
        exact absurd less (Fin.not_lt_zero _)

theorem Waits.dispatch (waits : Waits policy period (slack s) s) (kept : Kept w s) :
    Waits policy period (slack (s.dispatch policy)) (s.dispatch policy) := by
  rcases dispatch_cases s policy with ⟨i, free, chosen, same⟩ | ⟨-, same⟩
  · obtain ⟨front, back, shape, fresh, lower⟩ := choose_splits chosen
    have idle : slack s = 0 := by rw [slack, free]
    rw [idle] at waits
    have left : s.ready.erase i = front ++ back := by
      rw [shape, List.erase_append_right _ fresh, List.erase_cons_head]
    have own : slack (s.dispatch policy) = (s.entries i).slice := by
      rw [same, slack]
      simp [Entry.taken]
    have undone : (s.entries i).done = none := by
      apply kept.undone
      rw [shape]
      exact List.mem_append_right front List.mem_cons_self
    rw [own, same]
    refine ⟨fun k undone => ?_, fun rr k => ?_, waits.near, fun front' k back' => ?_, fun k => ?_⟩
    · by_cases mine : k = i
      · subst mine
        simp only [Function.update_self] at undone ⊢
        exact waits.slices k undone
      · simp only [Function.update_of_ne mine] at undone ⊢
        exact waits.slices k undone
    · by_cases mine : k = i
      · subst mine
        simp only [Function.update_self]
        exact waits.flat rr k
      · simp only [Function.update_of_ne mine]
        exact waits.flat rr k
    · intro shape'
      change s.ready.erase i = _ at shape'
      rw [left] at shape'
      exact waits.taken kept shape fresh lower (fun k other => Function.update_of_ne other _ _) rfl rfl shape'
    · by_cases mine : k = i
      · subst mine
        simp only [Function.update_self, Entry.taken]
        apply max_le (waits.past k)
        rcases waits.waiting front k back shape with ⟨mlfq, -, soon⟩ | ⟨-, -, bound⟩
        · subst mlfq
          unfold patience
          simp only
          omega
        · omega
      · simp only [Function.update_of_ne mine]
        exact waits.past k
  · rw [same]
    exact waits

/-! ### A tick -/

/-- Slices after a tick are fresh or the old ones without it. -/
theorem renew_slices (least : 1 ≤ e.slice) (short : e.level = 0 → e.slice ≤ 2) (policy : Policy) :
    1 ≤ (e.charge.renew policy).slice ∧ ((e.charge.renew policy).level = 0 → (e.charge.renew policy).slice ≤ 2) := by
  have positive (level : Fin 3) : 1 ≤ slices level := by
    revert level
    decide
  have top (level : Fin 3) : level = 0 → slices level ≤ 2 := by
    revert level
    decide
  have charged : e.charge.slice = e.slice - 1 := rfl
  unfold Entry.renew
  split
  · exact ⟨positive (e.charge.level + 1), top (e.charge.level + 1)⟩
  · split
    · dsimp only
      split
      · exact ⟨positive _, top _⟩
      · exact ⟨by omega, fun _ => le_rfl⟩
    · rename_i some
      refine ⟨by omega, fun first => ?_⟩
      have before := short first
      omega

theorem renew_flat (flat : e.level = 0) : (e.charge.renew .rr).level = 0 := by
  have stays : ¬ e.charge.Demotes .rr := fun down => nomatch down.2.1
  unfold Entry.renew
  rw [if_neg stays]
  split <;> exact flat

theorem leave_slice (w : Workload n) (i : Fin n) (now : Nat) (e : Entry) :
    (w.leave i now e).slice = e.slice ∧ (w.leave i now e).level = e.level ∧ (w.leave i now e).maxWait = e.maxWait := by
  rcases leave_cases w i now e with ⟨-, same⟩ | ⟨-, -, same⟩ | ⟨-, same⟩ <;> rw [same] <;> exact ⟨rfl, rfl, rfl⟩

/-- A tick is paid for by the slice it is taken from. -/
theorem Waits.charged (waits : Waits policy period rest s) (kept : Kept w s) (running : (s.entries i).phase = .running)
    (ahead : policy = .mlfq → s.now < s.nextBoost) : Waits policy period (rest - 1) (w.charged policy s i) := by
  have undone : (s.entries i).done = none := by
    apply (kept.fits i).unended.mpr
    rw [running]
    nofun
  obtain ⟨least, short⟩ := waits.slices i undone
  have other (k : Fin n) (member : k ∈ s.ready) : (w.charged policy s i).entries k = s.entries k := by
    apply charged_others
    rintro rfl
    exact nomatch ((kept.ready k).mp member).symm.trans running
  refine ⟨fun k undone' => ?_, fun rr k => ?_, waits.near.trans (Nat.add_le_add_right (Nat.le_succ s.now) period),
    fun front k back shape => ?_, fun k => ?_⟩
  · by_cases own : k = i
    · subst own
      rw [charged_mine]
      obtain ⟨slice, level, -⟩ := leave_slice w k (s.now + 1) ((s.entries k).charge.renew policy)
      rw [slice, level]
      exact renew_slices least short policy
    · rw [charged_others own] at undone' ⊢
      exact waits.slices k undone'
  · by_cases own : k = i
    · subst own
      rw [charged_mine, (leave_slice w k _ _).2.1]
      subst rr
      exact renew_flat (waits.flat rfl k)
    · rw [charged_others own]
      exact waits.flat rr k
  · have shape : s.ready = front ++ k :: back := shape
    have mine : k ∈ s.ready := by
      rw [shape]
      exact List.mem_append_right front List.mem_cons_self
    have now : (w.charged policy s i).now = s.now + 1 := rfl
    rcases waits.waiting front k back shape with ⟨mlfq, early, soon⟩ | ⟨top, tops, bound⟩
    · have before := ahead mlfq
      refine .inl ⟨mlfq, ?_, ?_⟩
      · rw [other k mine]
        exact early
      · rw [other k mine, now]
        omega
    · refine .inr ⟨by rw [other k mine]; exact top, fun j among => ?_, ?_⟩
      · rw [other j (by rw [shape]; exact List.mem_append_left _ among)]
        exact tops j among
      · rw [other k mine, now]
        omega
  · by_cases own : k = i
    · subst own
      rw [charged_mine, (leave_slice w k _ _).2.2]
      obtain ⟨level, slice, allot, same⟩ := renew_eq policy (s.entries k)
      rw [same]
      exact waits.past k
    · rw [charged_others own]
      exact waits.past k

/-- The current job is not in the line, so its slice has room. -/
theorem Kept.room (kept : Kept w s) (steady : Steady s) (short : ∀ i, s.current = some i → (s.entries i).slice ≤ 2) :
    2 * (s.ready.length : Int) + slack s ≤ 2 * n := by
  cases current : s.current with
  | none =>
    have count := List.Nodup.length_le_card kept.distinct
    rw [Fintype.card_fin] at count
    rw [slack, current]
    dsimp only
    omega
  | some i =>
    have away : i ∉ s.ready := by simp [kept.ready, steady i current]
    have count := List.Nodup.length_le_card (List.nodup_cons.mpr ⟨away, kept.distinct⟩)
    rw [Fintype.card_fin, List.length_cons] at count
    have slice := short i current
    rw [slack, current]
    dsimp only
    omega

/-! ### Runs -/

/-- What holds at the head of the loop. -/
structure Patient (policy : Policy) (period : Nat) (s : State n) : Prop where
  waits : Waits policy period (slack s) s
  stops : policy = .mlfq → s.current ≠ none → s.now < s.nextBoost

theorem start_patient (w : Workload n) (policy : Policy) (period : Nat) : Patient policy period (w.start period) :=
  ⟨start_waits w policy period, fun _ some => absurd rfl some⟩

theorem Patient.poised (patient : Patient policy period s) (head : AtHead w s) :
    Waits policy period (slack (s.poised policy period)) (s.poised policy period) := by
  have kept := head.toKept.scan.1
  have slices (i : Fin n) : (s.scan.entries i).slice = (s.entries i).slice := by
    rw [scan_entries, (woken_counters s.now (s.entries i)).2.1]
  have slack_scan : slack s.scan = slack s := by
    unfold slack
    rw [scan_current]
    split
    · exact slices _
    · rfl
  have steady : Steady s.scan := by
    intro i current
    rw [scan_current] at current
    rw [scan_entries, woken_running]
    exact head.steady i current
  have scanned : Waits policy period (slack s.scan) s.scan := by
    rw [slack_scan]
    refine patient.waits.scan head.toKept fun rr => ?_
    rw [← slack_scan]
    refine kept.room steady fun i current => ?_
    have undone : (s.entries i).done = none := by
      apply (head.fits i).unended.mpr
      rw [scan_current] at current
      rw [head.steady i current]
      nofun
    rw [slices]
    exact (patient.waits.slices i undone).2 (patient.waits.flat rr i)
  have nobody (mlfq : policy = .mlfq) (due : s.scan.nextBoost ≤ s.scan.now) : s.scan.current = none := by
    by_contra some
    rw [scan_current] at some
    rw [scan_nextBoost, scan_now] at due
    exact absurd (patient.stops mlfq some) (not_lt.mpr due)
  have idle (none : s.scan.current = none) : slack s.scan = 0 := by rw [slack, none]
  have boosted := scanned.boost kept fun mlfq due => (idle (nobody mlfq due)).le
  have slack_boost : slack (s.scan.boost policy period) = slack s.scan := by
    have current := (boost_other s.scan policy period).2.2.2.1
    by_cases fires : policy = .mlfq ∧ s.scan.nextBoost ≤ s.scan.now
    · have none := nobody fires.1 fires.2
      rw [slack, current, none, idle none]
    · rw [State.boost, if_neg fires]
  rw [← slack_boost] at boosted
  exact boosted.dispatch (kept.boost policy period)

theorem Patient.tick (waits : Waits policy period (slack s) s) (head : AtHead w s) (settled : Settled s)
    (current : s.current = some i) (ahead : policy = .mlfq → s.now < s.nextBoost) :
    Patient policy period (w.tick policy s i) := by
  have running := head.steady i current
  have undone : (s.entries i).done = none := by
    apply (head.fits i).unended.mpr
    rw [running]
    nofun
  have own : slack s = (s.entries i).slice := by rw [slack, current]
  rw [own] at waits
  obtain ⟨least, short⟩ := waits.slices i undone
  have kept : Kept w (w.charged policy s i) := head.toKept.charged settled current running
  have charged := waits.charged head.toKept running ahead
  obtain ⟨ticked, steady⟩ := head.toKept.tick settled policy current running
  rcases tick_cases w policy s i with stopped | ⟨on, -, -, fresh, stays⟩
  · have scanned : Waits policy period 0 (w.spend policy s i) := by
      refine (charged.less (by omega)).scan kept fun _ => ?_
      have count := List.Nodup.length_le_card kept.scan.1.distinct
      rw [Fintype.card_fin] at count
      omega
    rw [stopped]
    have none := giveUp_current (w.spend policy s i) i
    refine ⟨?_, fun _ some => absurd none some⟩
    have idle : slack ((w.spend policy s i).giveUp i) = 0 := by rw [slack, none]
    rw [idle]
    exact scanned.giveUp kept.scan.1 i
  · rw [on] at ticked steady ⊢
    have mine : (w.spend policy s i).current = some i := by
      rw [spend_eq, scan_current]
      exact current
    simp only [Entry.Expired, not_or] at fresh
    have slice : ((w.spend policy s i).entries i).slice = (s.entries i).slice - 1 := by
      rw [spend_eq, scan_entries, (woken_counters _ _).2.1, charged_mine, (leave_slice w i _ _).1, Entry.renew,
        if_neg fresh.1, if_neg fresh.2]
      rfl
    have left : slack (w.spend policy s i) = (s.entries i).slice - 1 := by rw [slack, mine]; exact slice
    refine ⟨?_, fun mlfq _ => ?_⟩
    · rw [left]
      refine charged.scan kept fun rr => ?_
      rw [← left]
      refine ticked.room steady fun k other => ?_
      cases mine.symm.trans other
      rw [slice]
      have before := short (waits.flat rr i)
      omega
    · by_contra due
      exact stays ⟨mlfq, .inr (not_lt.mp due)⟩

theorem Patient.next (patient : Patient policy period s) (head : AtHead w s) (positive : 0 < period)
    (next : w.pass policy period s = .ok t) : Patient policy period t := by
  have waits := patient.poised head
  have ahead : policy = .mlfq → (s.poised policy period).now < (s.poised policy period).nextBoost := by
    rintro rfl
    obtain ⟨now, nextBoost⟩ := poised_clock s .mlfq period
    rw [now, nextBoost, ← scan_now s]
    exact boost_ahead s.scan positive
  obtain ⟨a, rfl, head', settled, ⟨free, nobody, moved⟩ | ⟨i, current, -, ticked⟩⟩ := head.cases policy period
  · cases moved.symm.trans next
    have none : slack (s.poised policy period) = 0 := by rw [slack, free]
    rw [none] at waits
    rcases idle_cases (s.poised policy period) with ⟨i, sleeps, -, same⟩ | ⟨-, same⟩
    · rw [same]
      refine ⟨?_, fun _ some => absurd free some⟩
      have later := (settled i sleeps).le
      have idle : slack { s.poised policy period with now := ((s.poised policy period).entries i).wake } = 0 := none
      rw [idle]
      refine ⟨waits.slices, waits.flat, waits.near.trans (Nat.add_le_add_right later period),
        fun front k back shape => ?_, waits.past⟩
      rw [nobody] at shape
      exact absurd shape.symm (List.append_ne_nil_of_right_ne_nil front (List.cons_ne_nil k back))
    · rw [same]
      exact ⟨none.symm ▸ waits, fun _ some => absurd free some⟩
  · cases ticked.symm.trans next
    exact Patient.tick waits head' settled current ahead

theorem schedule_patient (positive : 0 < period) (leads : w.Leads policy period (w.start period) t) :
    Patient policy period t := by
  have keeps (s : State n) (both : AtHead w s ∧ Patient policy period s) (_ : s.Going) :
      ∃ m, w.pass policy period s = .ok m ∧ AtHead w m ∧ Patient policy period m := by
    obtain ⟨m, next, head⟩ := both.1.pass policy period
    exact ⟨m, next, head, both.2.next both.1 positive next⟩
  obtain ⟨t', same, ⟨-, patient⟩, -⟩ :=
    leads.invariant keeps ⟨start_head w period, start_patient w policy period⟩
  cases same
  exact patient

/-- **No starvation.** For every workload it accepts and every positive boost
period, no job is ready for longer than a boost period and two ticks for each
other job under MLFQ, nor longer than those two ticks under round robin. -/
theorem no_starvation (jobs : Fin n → Job) (period : Nat) (accepted : Accepted jobs) (positive : 0 < period) :
    (∃ r, Simulates jobs .mlfq period r ∧ ∀ i, (r.jobs i).maxReadyWait ≤ period + 2 * (n - 1)) ∧
    ∃ r, Simulates jobs .rr period r ∧ ∀ i, (r.jobs i).maxReadyWait ≤ 2 * (n - 1) := by
  obtain ⟨w, valid, -⟩ := validate_accepts accepted
  have each (policy : Policy) : ∃ r, Simulates jobs policy period r ∧
      ∀ i, (r.jobs i).maxReadyWait ≤ patience n policy period := by
    obtain ⟨t, leads, -⟩ := schedule_ends w policy period
    obtain ⟨-, returns⟩ := leads_returns leads
    exact ⟨_, Returns.simulate valid positive returns, (schedule_patient positive leads).waits.past⟩
  obtain ⟨r, simulates, bound⟩ := each .rr
  refine ⟨each .mlfq, r, simulates, fun i => ?_⟩
  have within := bound i
  unfold patience at within
  simp only [Nat.zero_add] at within
  exact within

theorem no_starvation_course :
    (∃ r, Simulates course .mlfq 40 r ∧ ∀ i, (r.jobs i).maxReadyWait ≤ 40 + 2 * (4 - 1)) ∧
    ∃ r, Simulates course .rr 40 r ∧ ∀ i, (r.jobs i).maxReadyWait ≤ 2 * (4 - 1) :=
  no_starvation course 40 course_accepted (by decide)

end Neonos.Mlfq
