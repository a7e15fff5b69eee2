import Mathlib

/-! Texts written one after another, each but the first behind a separator of
its own, and when they can be read back from the whole. -/
namespace Neonos.Separators

variable {sep text text' : ι → List α} {names : List ι} {lead lead' gap before after close : List α}

/-- The texts under these names, each behind its separator, and the close. -/
def spread (sep text : ι → List α) (close : List α) : List ι → List α
  | [] => close
  | name :: names => sep name ++ (text name ++ spread sep text close names)

/-- The separator stands at one place only in what it makes of its neighbours. -/
def Once (gap before after : List α) : Prop := ∀ a b, a ++ (gap ++ b) = before ++ (gap ++ after) → a = before

/-- Every separator stands once between its neighbours. -/
def Readable (sep text : ι → List α) : List α → List ι → Prop
  | _, [] => True
  | lead, name :: names => Once (sep name) lead (text name) ∧ Readable sep text (text name) names

theorem spread_congr (same : ∀ name ∈ names, text name = text' name) :
    spread sep text close names = spread sep text' close names := by
  induction names with
  | nil => rfl
  | cons name names ih =>
    unfold spread
    rw [same name List.mem_cons_self, ih fun later member => same later (List.mem_cons_of_mem name member)]

/-- Two places of a separator in one text: what lies before the later one is
matched by what lies behind the earlier one. -/
theorem slides {skipped rest rest' : List α} (same : gap ++ rest = skipped ++ (gap ++ rest')) :
    ∃ behind, skipped ++ gap = gap ++ behind ∧ rest = behind ++ rest' := by
  rw [← List.append_assoc] at same
  rcases List.append_eq_append_iff.mp same with ⟨behind, shape, rest⟩ | ⟨none, shape, rest⟩
  · exact ⟨behind, shape, rest⟩
  · have lengths := congrArg List.length shape
    simp only [List.length_append] at lengths
    obtain rfl : skipped = [] := List.eq_nil_of_length_eq_zero (by omega)
    obtain rfl : none = [] := List.eq_nil_of_length_eq_zero (by omega)
    exact ⟨[], by simp, by simpa using rest.symm⟩

theorem behind_nil {behind : List α} (shape : [] ++ gap = gap ++ behind) : behind = [] := by
  rw [List.nil_append] at shape
  exact List.append_cancel_left (shape.symm.trans (List.append_nil gap).symm)

/-- Texts whose separators stand once are read back. -/
theorem read_back (readable : Readable sep text lead names)
    (same : lead ++ spread sep text close names = lead' ++ spread sep text' close names) :
    lead = lead' ∧ ∀ name ∈ names, text name = text' name := by
  induction names generalizing lead lead' with
  | nil => exact ⟨List.append_cancel_right same, fun name member => absurd member List.not_mem_nil⟩
  | cons name names ih =>
    obtain ⟨once, readable⟩ := readable
    unfold spread at same
    suffices all : lead = lead' ∧ text name = text' name ∧ ∀ later ∈ names, text later = text' later by
      refine ⟨all.1, fun later member => ?_⟩
      rcases List.mem_cons.mp member with rfl | member
      · exact all.2.1
      · exact all.2.2 later member
    rcases List.append_eq_append_iff.mp same with ⟨skipped, longer, shape⟩ | ⟨skipped, longer, shape⟩
    · -- the other reading has its first separator later, so its texts end later all along
      obtain ⟨behind, turned, rest⟩ := slides shape
      rw [← List.append_assoc] at rest
      obtain ⟨mine, later⟩ := ih readable rest
      have other : lead' = lead := by
        apply once lead' (text' name)
        rw [longer, mine, List.append_assoc, ← List.append_assoc skipped, turned, List.append_assoc]
      obtain rfl : skipped = [] := by
        rw [other] at longer
        exact List.append_cancel_left (longer.symm.trans (List.append_nil lead).symm)
      obtain rfl := behind_nil turned
      exact ⟨other.symm, mine, later⟩
    · obtain ⟨behind, turned, rest⟩ := slides shape
      have other : lead' = lead := by
        apply once lead' (behind ++ text name)
        rw [longer, List.append_assoc, ← List.append_assoc skipped, turned, List.append_assoc]
      obtain rfl : skipped = [] := by
        rw [other] at longer
        exact List.append_cancel_left (longer.symm.trans (List.append_nil lead).symm)
      obtain rfl := behind_nil turned
      obtain ⟨mine, later⟩ := ih readable rest.symm
      exact ⟨other.symm, mine, later⟩

/-- Texts of which a separator stands twice have a second reading. -/
theorem second_reading [DecidableEq ι] (nodup : names.Nodup) (ambiguous : ¬ Readable sep text lead names) :
    ∃ lead' text', lead ++ spread sep text close names = lead' ++ spread sep text' close names ∧
      ¬ (lead = lead' ∧ ∀ name ∈ names, text name = text' name) := by
  induction names generalizing lead with
  | nil => exact absurd trivial ambiguous
  | cons name names ih =>
    obtain ⟨fresh, nodup⟩ := List.nodup_cons.mp nodup
    have kept (f : ι → List α) (own : List α) : ∀ later ∈ names, f later = Function.update f name own later := by
      intro later member
      have different : later ≠ name := fun same => fresh (same ▸ member)
      exact (Function.update_of_ne different own f).symm
    by_cases once : Once (sep name) lead (text name)
    · obtain ⟨own, others, same, apart⟩ := ih nodup fun readable => ambiguous ⟨once, readable⟩
      refine ⟨lead, Function.update others name own, ?_, fun all => apart ⟨?_, fun later member => ?_⟩⟩
      · unfold spread
        rw [Function.update_self, ← spread_congr (kept others own), same]
      · have mine := all.2 name List.mem_cons_self
        rwa [Function.update_self] at mine
      · rw [kept others own later member]
        exact all.2 later (List.mem_cons_of_mem name member)
    · simp only [Once, not_forall] at once
      obtain ⟨a, b, same, apart⟩ := once
      refine ⟨a, Function.update text name b, ?_, fun all => apart all.1.symm⟩
      unfold spread
      rw [Function.update_self, ← spread_congr (kept text b), ← List.append_assoc (sep name),
        ← List.append_assoc lead, ← List.append_assoc (sep name), ← List.append_assoc a, same]

theorem readable_iff [DecidableEq ι] (close : List α) (nodup : names.Nodup) :
    (∀ lead' text', lead ++ spread sep text close names = lead' ++ spread sep text' close names →
      lead = lead' ∧ ∀ name ∈ names, text name = text' name) ↔ Readable sep text lead names := by
  constructor
  · intro unique
    by_contra ambiguous
    obtain ⟨lead', text', same, apart⟩ := second_reading nodup ambiguous
    exact apart (unique lead' text' same)
  · intro readable lead' text' same
    exact read_back readable same

/-- A separator with a mark that neither neighbour has stands once. -/
theorem Once.of_mark [DecidableEq α] {mark : α} (marked : gap.head? = some mark) (clear : mark ∉ before)
    (clear' : mark ∉ after) : Once gap before after := by
  intro a b same
  obtain ⟨tail, rfl⟩ := List.head?_eq_some_iff.mp marked
  have marks := congrArg (List.count mark) same
  simp only [List.count_append, List.count_eq_zero.mpr clear, List.count_eq_zero.mpr clear'] at marks
  have mine : mark ∉ a := List.count_eq_zero.mp (by omega)
  rcases List.append_eq_append_iff.mp same with ⟨more, longer, shape⟩ | ⟨more, longer, shape⟩
  · cases more with
    | nil => simpa using longer.symm
    | cons first more =>
      obtain rfl : mark = first := (List.cons.inj shape).1
      exact absurd (longer ▸ by simp) clear
  · cases more with
    | nil => simpa using longer
    | cons first more =>
      obtain rfl : mark = first := (List.cons.inj shape).1
      exact absurd (longer ▸ by simp) mine

end Neonos.Separators
