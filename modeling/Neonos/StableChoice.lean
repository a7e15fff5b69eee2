import Mathlib

/-! Taking the earliest element of least key out of a waiting line. A constant
key is first come first served; a priority key is strict priority with first
come first served inside each priority. -/
namespace Neonos.StableChoice

/-- `chosen` is the earliest among the elements of least key, and `rest` is
the line with just that place closed. -/
def Takes [LT κ] [LE κ] (key : α → κ) (line : List α) (chosen : α) (rest : List α) : Prop :=
  ∃ front back, line = front ++ chosen :: back ∧ rest = front ++ back ∧
    (∀ other ∈ front, key chosen < key other) ∧ ∀ other ∈ back, key chosen ≤ key other

/-- The scan that keeps its first candidate until a strictly smaller key turns up. -/
def least [LT κ] [DecidableLT κ] (key : α → κ) : List α → Option α
  | [] => none
  | first :: rest =>
    some (rest.foldl (fun best next => if key next < key best then next else best) first)

section scan
variable [LinearOrder κ] {key : α → κ}

private theorem scan_splits (rest : List α) (best : α) (front back : List α)
    (before : ∀ other ∈ front, key best < key other) (after : ∀ other ∈ back, key best ≤ key other) :
    ∃ front' back', front ++ best :: (back ++ rest) =
        front' ++ (rest.foldl (fun best next => if key next < key best then next else best) best) :: back' ∧
      (∀ other ∈ front', key (rest.foldl (fun best next => if key next < key best then next else best) best)
        < key other) ∧
      ∀ other ∈ back', key (rest.foldl (fun best next => if key next < key best then next else best) best)
        ≤ key other := by
  induction rest generalizing best front back with
  | nil => exact ⟨front, back, by simp, before, after⟩
  | cons next rest ih =>
    by_cases smaller : key next < key best
    · obtain ⟨front', back', shape, least, ties⟩ := ih next (front ++ best :: back) []
        (by
          intro other member
          rcases List.mem_append.mp member with earlier | later
          · exact smaller.trans (before other earlier)
          · rcases List.mem_cons.mp later with rfl | later
            · exact smaller
            · exact smaller.trans_le (after other later))
        (by simp)
      refine ⟨front', back', ?_, ?_, ?_⟩
      · simpa [smaller] using shape
      · simpa [smaller] using least
      · simpa [smaller] using ties
    · obtain ⟨front', back', shape, least, ties⟩ := ih best front (back ++ [next]) before
        (by
          intro other member
          rcases List.mem_append.mp member with earlier | last
          · exact after other earlier
          · rw [List.mem_singleton.mp last]
            exact not_lt.mp smaller)
      refine ⟨front', back', ?_, ?_, ?_⟩
      · simpa [smaller] using shape
      · simpa [smaller] using least
      · simpa [smaller] using ties

/-- The scan finds the earliest element of least key. -/
theorem least_splits (found : least key line = some chosen) :
    ∃ front back, line = front ++ chosen :: back ∧
      (∀ other ∈ front, key chosen < key other) ∧ ∀ other ∈ back, key chosen ≤ key other := by
  cases line with
  | nil => simp [least] at found
  | cons first rest =>
    cases found
    simpa using scan_splits rest first [] [] (by simp) (by simp)

/-- The scan sees nothing of the elements but the order of their keys. -/
theorem least_map [LinearOrder κ'] {key' : β → κ'} {f : α → β} (line : List α)
    (same : ∀ a b, key' (f a) < key' (f b) ↔ key a < key b) : least key' (line.map f) = (least key line).map f := by
  have folds (rest : List α) (best : α) :
      (rest.map f).foldl (fun best next => if key' next < key' best then next else best) (f best) =
        f (rest.foldl (fun best next => if key next < key best then next else best) best) := by
    induction rest generalizing best with
    | nil => rfl
    | cons next rest ih =>
      rw [List.map_cons, List.foldl_cons, List.foldl_cons]
      by_cases smaller : key next < key best
      · rw [if_pos smaller, if_pos ((same next best).mpr smaller), ih]
      · rw [if_neg smaller, if_neg (mt (same next best).mp smaller), ih]
  cases line with
  | nil => rfl
  | cons first rest => exact congrArg some (folds rest first)

theorem least_none : least key line = none ↔ line = [] := by
  cases line <;> simp [least]

/-- Removing the scanned element by value is the same as closing its place. -/
theorem least_takes [DecidableEq α] (found : least key line = some chosen) :
    Takes key line chosen (line.erase chosen) := by
  obtain ⟨front, back, shape, before, after⟩ := least_splits found
  refine ⟨front, back, shape, ?_, before, after⟩
  have fresh : chosen ∉ front := fun member => lt_irrefl _ (before chosen member)
  rw [shape, List.erase_append_right _ fresh, List.erase_cons_head]

end scan

section rules
variable [Preorder κ] {key : α → κ} {line rest rest' : List α} {chosen chosen' waiting : α}

theorem Takes.perm (taken : Takes key line chosen rest) : line.Perm (chosen :: rest) := by
  obtain ⟨front, back, rfl, rfl, -, -⟩ := taken
  exact List.perm_middle

theorem Takes.mem_iff (taken : Takes key line chosen rest) :
    waiting ∈ line ↔ waiting = chosen ∨ waiting ∈ rest := by
  rw [taken.perm.mem_iff, List.mem_cons]

theorem Takes.mem (taken : Takes key line chosen rest) : chosen ∈ line :=
  taken.mem_iff.mpr (.inl rfl)

/-- A line leaves one choice only. -/
theorem Takes.once (first : Takes key line chosen rest) (second : Takes key line chosen' rest') :
    chosen = chosen' ∧ rest = rest' := by
  obtain ⟨front, back, rfl, rfl, before, after⟩ := first
  obtain ⟨front', back', shape, rfl, before', after'⟩ := second
  rcases List.append_eq_append_iff.mp shape with ⟨between, rfl, tail⟩ | ⟨between, rfl, tail⟩
  · cases between with
    | nil =>
      obtain ⟨rfl, rfl⟩ := List.cons.inj tail
      simp
    | cons head between =>
      obtain ⟨rfl, rfl⟩ := List.cons.inj tail
      exact absurd (after chosen' (by simp)) (not_le_of_gt (before' chosen (by simp)))
  · cases between with
    | nil =>
      obtain ⟨rfl, rfl⟩ := List.cons.inj tail
      simp
    | cons head between =>
      obtain ⟨rfl, rfl⟩ := List.cons.inj tail
      exact absurd (after' chosen (by simp)) (not_le_of_gt (before chosen' (by simp)))

/-- Everybody else keeps their relative order. -/
theorem Takes.sublist (taken : Takes key line chosen rest) : rest.Sublist line := by
  obtain ⟨front, back, rfl, rfl, -, -⟩ := taken
  exact List.Sublist.append_left (List.sublist_cons_self _ _) _

theorem Takes.length (taken : Takes key line chosen rest) : line.length = rest.length + 1 := by
  simpa using taken.perm.length_eq

theorem Takes.nodup (taken : Takes key line chosen rest) (distinct : line.Nodup) :
    chosen ∉ rest ∧ rest.Nodup :=
  List.nodup_cons.mp (taken.perm.nodup_iff.mp distinct)

/-- Nobody in the line has a smaller key than the chosen one. -/
theorem Takes.least (taken : Takes key line chosen rest) (member : waiting ∈ line) :
    key chosen ≤ key waiting := by
  obtain ⟨front, back, rfl, -, before, after⟩ := taken
  rcases List.mem_append.mp member with earlier | later
  · exact (before waiting earlier).le
  · rcases List.mem_cons.mp later with rfl | later
    · exact le_refl _
    · exact after waiting later

/-- Among equal keys the chosen one stood first. -/
theorem Takes.earliest {joined : α → α → Prop} (taken : Takes key line chosen rest)
    (ordered : line.Pairwise joined) (member : waiting ∈ rest)
    (tie : key waiting ≤ key chosen) : joined chosen waiting := by
  obtain ⟨front, back, rfl, rfl, before, -⟩ := taken
  rcases List.mem_append.mp member with earlier | later
  · exact absurd (before waiting earlier) (not_lt_of_ge tie)
  · exact (List.pairwise_cons.mp (List.pairwise_append.mp ordered).2.1).1 waiting later

/-- One of least key that is passed over moves up by exactly one place. -/
theorem Takes.advances [DecidableEq α] (taken : Takes key line chosen rest) (member : waiting ∈ line)
    (tie : key waiting ≤ key chosen) (passed : waiting ≠ chosen) :
    waiting ∈ rest ∧ rest.idxOf waiting + 1 = line.idxOf waiting := by
  refine ⟨(taken.mem_iff.mp member).resolve_left passed, ?_⟩
  obtain ⟨front, back, rfl, rfl, before, -⟩ := taken
  have fresh : waiting ∉ front := fun earlier => not_lt_of_ge tie (before waiting earlier)
  rw [List.idxOf_append, List.idxOf_append, if_neg fresh, if_neg fresh,
    List.idxOf_cons_ne _ (Ne.symm passed)]
  omega

/-- Under one common key the head is taken. -/
theorem Takes.head (taken : Takes key line chosen rest)
    (common : ∀ a ∈ line, ∀ b ∈ line, ¬ key a < key b) : line = chosen :: rest := by
  obtain ⟨front, back, rfl, rfl, before, -⟩ := taken
  cases front with
  | nil => rfl
  | cons first front =>
    exact absurd (before first (by simp)) (common chosen (by simp) first (by simp))

/-- What holds between line members in order still holds after the choice. -/
theorem Takes.pairwise {joined : α → α → Prop} (taken : Takes key line chosen rest)
    (ordered : line.Pairwise joined) : rest.Pairwise joined :=
  ordered.sublist taken.sublist

end rules

/-- The choice sees nothing of the elements but the order of their keys. -/
theorem Takes.map [LinearOrder κ] [LinearOrder κ'] {key : α → κ} {key' : β → κ'} {f : α → β}
    (taken : Takes key line chosen rest) (same : ∀ a b, key' (f a) < key' (f b) ↔ key a < key b) :
    Takes key' (line.map f) (f chosen) (rest.map f) := by
  obtain ⟨front, back, rfl, rfl, before, after⟩ := taken
  refine ⟨front.map f, back.map f, by simp, by simp, ?_, ?_⟩
  · intro other member
    obtain ⟨a, early, rfl⟩ := List.mem_map.mp member
    exact (same chosen a).mpr (before a early)
  · intro other member
    obtain ⟨a, late, rfl⟩ := List.mem_map.mp member
    exact not_lt.mp fun less => absurd ((same a chosen).mp less) (not_lt.mpr (after a late))

/-! ### Waiting lines and the history of arrivals -/

section arrivals
variable [DecidableEq α] {arrivals line : List α} {a x : α}

/-- When `a` last arrived, counted from 1; 0 if it never did. -/
def lastJoin (arrivals : List α) (a : α) : Nat := arrivals.length - arrivals.reverse.idxOf a

theorem lastJoin_self (arrivals : List α) (x : α) :
    lastJoin (arrivals ++ [x]) x = arrivals.length + 1 := by
  simp [lastJoin]

theorem lastJoin_other (different : a ≠ x) : lastJoin (arrivals ++ [x]) a = lastJoin arrivals a := by
  simp [lastJoin, List.idxOf_cons_ne _ (Ne.symm different)]

theorem lastJoin_le (arrivals : List α) (a : α) : lastJoin arrivals a ≤ arrivals.length :=
  Nat.sub_le _ _

/-- The line stands in the order in which the present stays began. -/
def InOrder (arrivals line : List α) : Prop :=
  line.Pairwise fun a c => lastJoin arrivals a < lastJoin arrivals c

theorem InOrder.join (ordered : InOrder arrivals line) (fresh : x ∉ line) :
    InOrder (arrivals ++ [x]) (line ++ [x]) := by
  have other (a : α) (member : a ∈ line) : a ≠ x := fun same => fresh (same ▸ member)
  refine List.pairwise_append.mpr ⟨?_, List.pairwise_singleton _ _, ?_⟩
  · refine List.Pairwise.imp_of_mem ?_ ordered
    intro a c first second before
    rw [lastJoin_other (other a first), lastJoin_other (other c second)]
    exact before
  · intro a member c last
    rw [List.mem_singleton.mp last, lastJoin_self, lastJoin_other (other a member)]
    exact Nat.lt_succ_of_le (lastJoin_le arrivals a)

theorem InOrder.joinAll {news : List α} (ordered : InOrder arrivals line)
    (distinct : (line ++ news).Nodup) : InOrder (arrivals ++ news) (line ++ news) := by
  induction news generalizing arrivals line with
  | nil => simpa using ordered
  | cons x news ih =>
    have fresh : x ∉ line := by
      intro member
      exact (List.nodup_append.mp distinct).2.2 x member x (by simp) rfl
    rw [List.append_cons line, List.append_cons arrivals]
    apply ih (ordered.join fresh)
    rw [← List.append_cons]
    exact distinct

/-- A line that nobody has left yet stands in order. -/
theorem InOrder.fresh (distinct : line.Nodup) : InOrder line line := by
  induction line using List.reverseRecOn with
  | nil => exact List.Pairwise.nil
  | append_singleton line x ih =>
    obtain ⟨rest, -, apart⟩ := List.nodup_append.mp distinct
    exact (ih rest).join fun member => apart x member x (by simp) rfl

end arrivals

end Neonos.StableChoice
