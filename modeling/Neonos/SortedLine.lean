import Mathlib

/-! Waiting lines that are sorted by a key, and what leaves them when a bound
on the key is reached. -/
namespace Neonos.SortedLine

section bound
variable {p : α → Bool} {line : List α}

/-- In a line in which a property is never found again once it fails, the front
that has it is all that has it. -/
theorem takeWhile_eq_filter (closed : line.Pairwise fun a b => p b → p a) :
    line.takeWhile p = line.filter p := by
  induction line with
  | nil => rfl
  | cons a line ih =>
    obtain ⟨first, rest⟩ := List.pairwise_cons.mp closed
    by_cases holds : p a
    · rw [List.takeWhile_cons_of_pos holds, List.filter_cons_of_pos holds, ih rest]
    · have none : line.filter p = [] := by
        rw [List.filter_eq_nil_iff]
        exact fun b member later => holds (first b member later)
      rw [List.takeWhile_cons_of_neg holds, List.filter_cons_of_neg holds, none]

theorem dropWhile_eq_filter (closed : line.Pairwise fun a b => p b → p a) :
    line.dropWhile p = line.filter fun a => !p a := by
  induction line with
  | nil => rfl
  | cons a line ih =>
    obtain ⟨first, rest⟩ := List.pairwise_cons.mp closed
    by_cases holds : p a
    · rw [List.dropWhile_cons_of_pos holds, List.filter_cons_of_neg (by simpa using holds), ih rest]
    · have all : line.filter (fun a => !p a) = line := by
        rw [List.filter_eq_self]
        intro b member
        simp only [Bool.not_eq_true'] at holds ⊢
        by_contra later
        exact absurd (first b member (by simpa using later)) (by simp [holds])
      rw [List.dropWhile_cons_of_neg holds, List.filter_cons_of_pos (by simpa using holds), all]

/-- What a wider bound takes off, a narrower one takes off first. -/
theorem takeWhile_twice {q : α → Bool} (wider : ∀ a, p a → q a) (line : List α) :
    line.takeWhile q = line.takeWhile p ++ (line.dropWhile p).takeWhile q := by
  induction line with
  | nil => rfl
  | cons a line ih =>
    by_cases holds : p a
    · rw [List.takeWhile_cons_of_pos holds, List.takeWhile_cons_of_pos (wider a holds),
        List.dropWhile_cons_of_pos holds, ih, List.cons_append]
    · rw [List.takeWhile_cons_of_neg holds, List.dropWhile_cons_of_neg holds, List.nil_append]

theorem dropWhile_twice {q : α → Bool} (wider : ∀ a, p a → q a) (line : List α) :
    line.dropWhile q = (line.dropWhile p).dropWhile q := by
  induction line with
  | nil => rfl
  | cons a line ih =>
    by_cases holds : p a
    · rw [List.dropWhile_cons_of_pos (wider a holds), List.dropWhile_cons_of_pos holds, ih]
    · rw [List.dropWhile_cons_of_neg holds]

end bound

/-- A strictly sorted line is determined by who stands in it. -/
theorem eq_of_mem_iff [LinearOrder κ] {key : α → κ} {line line' : List α}
    (sorted : line.Pairwise fun a b => key a < key b)
    (sorted' : line'.Pairwise fun a b => key a < key b) (same : ∀ a, a ∈ line ↔ a ∈ line') :
    line = line' := by
  have different (a b : α) (before : key a < key b) : a ≠ b := by
    rintro rfl
    exact lt_irrefl _ before
  have perm : line.Perm line' :=
    (List.perm_ext_iff_of_nodup (sorted.imp (different _ _)) (sorted'.imp (different _ _))).mpr same
  refine perm.eq_of_pairwise (fun a b _ _ before after => ?_) sorted sorted'
  exact absurd (before.trans after) (lt_irrefl _)

/-- Sorting by a key that tells the elements apart sorts strictly. -/
theorem insertionSort_strict [LinearOrder κ] {key : α → κ} (apart : Function.Injective key)
    {line : List α} (distinct : line.Nodup) :
    (line.insertionSort fun a b => key a ≤ key b).Pairwise fun a b => key a < key b := by
  have total : Std.Total fun a b : α => key a ≤ key b := ⟨fun a b => le_total _ _⟩
  have trans : IsTrans α fun a b => key a ≤ key b := ⟨fun a b c => le_trans⟩
  have sorted := List.pairwise_insertionSort (fun a b => key a ≤ key b) line
  have nodup := (List.perm_insertionSort (fun a b => key a ≤ key b) line).nodup_iff.mpr distinct
  refine (sorted.and nodup).imp ?_
  rintro a b ⟨before, different⟩
  exact lt_of_le_of_ne before fun same => different (apart same)

end Neonos.SortedLine
