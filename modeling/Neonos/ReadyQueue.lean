import Mathlib
import Neonos.Model.Scheduler

/-! The flat array of `Ready` is a duplicate-free list. Pushing appends to it
and popping takes its earliest element of least priority; slots past the
length never show. -/
namespace Neonos.Scheduler
open StableChoice

/-- What the queue orders by: the level under MLFQ, nothing otherwise. -/
def priority (mlfq : Bool) (tasks : TaskId → Task) (i : TaskId) : Nat :=
  if mlfq then (tasks i).level else 0

namespace Ready

@[simp] theorem contents_new : Ready.new.contents = [] := by
  simp [contents, new]

@[simp] theorem length_contents (q : Ready) : q.contents.length = q.len := by
  simp [contents]

theorem getElem_contents (q : Ready) (p : Nat) (within : p < q.contents.length) :
    q.contents[p] = q.slot ⟨p, by simpa using within⟩ := by
  simp [contents]

/-- A successful push appends an id that was not waiting. -/
theorem push_ok {q q' : Ready} {i : TaskId} (pushed : q.push i = .ok q') :
    i ∉ q.contents ∧ q'.contents = q.contents ++ [i] := by
  simp only [push, i.isLt, ↓reduceDIte] at pushed
  split at pushed
  · cases pushed
  · rename_i room
    split at pushed
    · cases pushed
    · rename_i fresh
      cases pushed
      refine ⟨fresh, List.ext_getElem (by simp) ?_⟩
      intro p left right
      rw [getElem_contents]
      simp only [length_contents] at left
      by_cases old : p < q.len
      · rw [List.getElem_append_left (by simpa using old), getElem_contents]
        simp [slot, Vector.getElem_set_ne, Nat.ne_of_gt old]
      · have last : p = q.len := by omega
        subst last
        simp [slot, List.getElem_append_right]

/-- A waiting line without repetitions that misses an id has room for it. -/
theorem push_succeeds {q : Ready} {i : TaskId} (distinct : q.contents.Nodup)
    (fresh : i ∉ q.contents) : ∃ q', q.push i = .ok q' := by
  have longer : (i :: q.contents).length ≤ Fintype.card TaskId :=
    (List.nodup_cons.mpr ⟨fresh, distinct⟩).length_le_card
  have room : q.len ≠ N := by
    have total : Fintype.card TaskId = N := Fintype.card_fin N
    simp only [List.length_cons, length_contents] at longer
    omega
  simp only [push, i.isLt, ↓reduceDIte, room]
  exact ⟨_, if_neg fresh⟩

theorem contents_closeGap (q : Ready) (pos : Fin q.len) :
    (q.closeGap pos).contents = q.contents.eraseIdx pos := by
  have used := q.within
  apply List.ext_getElem
  · rw [length_contents, List.length_eraseIdx_of_lt (by simp)]
    simp [closeGap]
  · intro p left right
    have shorter : p < q.len - 1 := by simpa [closeGap] using left
    rw [getElem_contents, List.getElem_eraseIdx]
    simp only [closeGap, slot, Vector.getElem_ofFn, getElem_contents]
    by_cases before : p < pos
    · have early : ¬ (pos.val ≤ p ∧ p + 1 < q.len) := by omega
      simp [before, early]
    · have late : pos.val ≤ p ∧ p + 1 < q.len := by omega
      simp [before, late]

theorem pop_none {q : Ready} : q.pop tasks mlfq = none ↔ q.contents = [] := by
  rw [← List.length_eq_zero_iff, length_contents]
  by_cases empty : q.len = 0
  · simp [pop, empty]
  · have some_ : least (fun p => (tasks (q.slot p)).level) (List.finRange q.len) ≠ none := by
      rw [Ne, least_none, ← List.length_eq_zero_iff, List.length_finRange]
      exact empty
    cases mlfq <;> simp [pop, empty, some_]

private theorem gap_splits (q : Ready) (pos : Fin q.len) :
    ∃ front back, q.contents = front ++ q.slot pos :: back ∧
      (q.closeGap pos).contents = front ++ back ∧
      (∀ id ∈ front, ∃ p : Fin q.len, p.val < pos.val ∧ id = q.slot p) ∧
      ∀ id ∈ back, ∃ p : Fin q.len, pos.val < p.val ∧ id = q.slot p := by
  have inside : pos.val < q.contents.length := by simp
  refine ⟨q.contents.take pos, q.contents.drop (pos + 1), ?_, ?_, ?_, ?_⟩
  · have here : q.contents[pos.val] = q.slot pos := getElem_contents q pos inside
    rw [← here, List.getElem_cons_drop, List.take_append_drop]
  · rw [contents_closeGap, List.eraseIdx_eq_take_drop_succ]
  · intro id member
    obtain ⟨p, within, rfl⟩ := List.mem_take_iff_getElem.mp member
    have bound : p < q.len := by simp at within; omega
    exact ⟨⟨p, bound⟩, by simp at within; omega, getElem_contents q p (by simpa using bound)⟩
  · intro id member
    obtain ⟨p, within, rfl⟩ := List.mem_drop_iff_getElem.mp member
    have bound : pos.val + 1 + p < q.len := by simpa [Nat.add_comm, Nat.add_left_comm] using within
    exact ⟨⟨pos.val + 1 + p, bound⟩, by simp only; omega,
      getElem_contents q _ (by simpa using bound)⟩

/-- Popping takes the earliest waiting task of least priority. -/
theorem pop_takes {q q' : Ready} {i : TaskId} (popped : q.pop tasks mlfq = some (i, q')) :
    Takes (priority mlfq tasks) q.contents i q'.contents := by
  simp only [pop] at popped
  split at popped
  · cases popped
  · rename_i used
    cases mlfq with
    | false =>
      simp only [Bool.false_eq_true, ↓reduceIte, Option.map_some, Option.some.injEq,
        Prod.mk.injEq] at popped
      obtain ⟨rfl, rfl⟩ := popped
      obtain ⟨front, back, whole, closed, early, -⟩ :=
        gap_splits q ⟨0, Nat.pos_of_ne_zero used⟩
      refine ⟨front, back, whole, closed, ?_, by simp [priority]⟩
      intro other member
      obtain ⟨p, before, -⟩ := early other member
      exact absurd before (Nat.not_lt_zero _)
    | true =>
      simp only [↓reduceIte, Option.map_eq_some_iff, Prod.mk.injEq] at popped
      obtain ⟨pos, found, rfl, rfl⟩ := popped
      obtain ⟨front, back, whole, closed, early, late⟩ := gap_splits q pos
      obtain ⟨before, after, order, least, ties⟩ := least_splits found
      have sorted : (List.finRange q.len).Pairwise (· < ·) := List.pairwise_lt_finRange _
      rw [order] at sorted
      have position (p : Fin q.len) : p ∈ before ∨ p = pos ∨ p ∈ after := by
        have member := List.mem_finRange p
        rw [order] at member
        simpa using member
      refine ⟨front, back, whole, closed, ?_, ?_⟩
      · intro other member
        obtain ⟨p, smaller, rfl⟩ := early other member
        have place : p ∈ before := by
          rcases position p with first | rfl | later
          · exact first
          · exact absurd smaller (lt_irrefl _)
          · have larger := (List.pairwise_cons.mp (List.pairwise_append.mp sorted).2.1).1 p later
            exact absurd smaller (Nat.lt_asymm larger)
        simpa [priority] using least p place
      · intro other member
        obtain ⟨p, larger, rfl⟩ := late other member
        have place : p ∈ after := by
          rcases position p with first | rfl | later
          · have smaller := (List.pairwise_append.mp sorted).2.2 p first pos (by simp)
            exact absurd larger (Nat.lt_asymm smaller)
          · exact absurd larger (lt_irrefl _)
          · exact later
        simpa [priority] using ties p place

end Ready

end Neonos.Scheduler
