import Mathlib

/-! Searching a text for a pattern at the starts of its lines. -/
namespace Neonos.LineSearch

abbrev Text := List Char

/-- A place in a text: what stands before it, what the pattern gave there, and
the text from there on. -/
structure Place (β : Type) where
  before : Text
  value : β
  text : Text
  deriving DecidableEq

/-- A line starts after this. -/
def AtLine (before : Text) : Prop := before = [] ∨ before.getLast? = some '\n'

instance (before : Text) : Decidable (AtLine before) := inferInstanceAs (Decidable (_ ∨ _))

section search
variable (pattern : Text → Option β)

def here (before text : Text) : List (Place β) :=
  if AtLine before then (pattern text).toList.map fun value => ⟨before, value, text⟩ else []

/-- All places at the start of a line where the pattern matches, in order. -/
def places (before : Text) : Text → List (Place β)
  | [] => here pattern before []
  | c :: text => here pattern before (c :: text) ++ places (before ++ [c]) text

end search

variable {pattern : Text → Option β} {place other : Place β} {before text : Text} {c : Char}

theorem atLine_snoc (before : Text) : AtLine (before ++ ['\n']) := .inr (by simp)

/-- Behind some text, a line starts after a line end only. -/
theorem AtLine.ends (before : Text) (start : AtLine (before ++ [c])) : c = '\n' := by
  rcases start with empty | ends
  · simp at empty
  · simpa using ends

theorem mem_here : place ∈ here pattern before text ↔
    place.before = before ∧ place.text = text ∧ AtLine before ∧ pattern text = some place.value := by
  unfold here
  obtain ⟨before', value, text'⟩ := place
  by_cases start : AtLine before
  · rw [if_pos start]
    simp only [List.mem_map, Option.mem_toList, Place.mk.injEq]
    constructor
    · rintro ⟨v, found, rfl, rfl, rfl⟩
      exact ⟨rfl, rfl, start, found⟩
    · rintro ⟨rfl, rfl, -, found⟩
      exact ⟨value, found, rfl, rfl, rfl⟩
  · rw [if_neg start]
    exact iff_of_false List.not_mem_nil fun all => start all.2.2.1

theorem mem_places : place ∈ places pattern before text ↔ ∃ skipped, place.before = before ++ skipped ∧
    text = skipped ++ place.text ∧ AtLine place.before ∧ pattern place.text = some place.value := by
  induction text generalizing before with
  | nil =>
    unfold places
    rw [mem_here]
    constructor
    · rintro ⟨stands, text, start, found⟩
      exact ⟨[], by rw [stands, List.append_nil], by rw [text, List.append_nil], stands ▸ start, text ▸ found⟩
    · rintro ⟨skipped, stands, text, start, found⟩
      obtain ⟨rfl, none⟩ := List.append_eq_nil_iff.mp text.symm
      rw [List.append_nil] at stands
      exact ⟨stands, none, stands ▸ start, none ▸ found⟩
  | cons c text ih =>
    unfold places
    rw [List.mem_append, mem_here, ih]
    constructor
    · rintro (⟨stands, same, start, found⟩ | ⟨skipped, stands, rest, start, found⟩)
      · exact ⟨[], by rw [stands, List.append_nil], by rw [same, List.nil_append], stands ▸ start, same ▸ found⟩
      · exact ⟨c :: skipped, by simp [stands], by rw [rest, List.cons_append], start, found⟩
    · rintro ⟨skipped, stands, rest, start, found⟩
      cases skipped with
      | nil =>
        rw [List.append_nil] at stands
        rw [List.nil_append] at rest
        exact .inl ⟨stands, rest.symm, stands ▸ start, rest ▸ found⟩
      | cons first skipped =>
        obtain ⟨rfl, later⟩ := List.cons.inj rest
        exact .inr ⟨skipped, by simp [stands], later, start, found⟩

theorem places_after (found : place ∈ places pattern before text) : before.length ≤ place.before.length := by
  obtain ⟨skipped, stands, -⟩ := mem_places.mp found
  rw [stands, List.length_append]
  exact Nat.le_add_right _ _

theorem places_ordered (pattern : Text → Option β) (before text : Text) :
    (places pattern before text).Pairwise fun a b => a.before.length < b.before.length := by
  have once (text : Text) (before : Text) :
      (here pattern before text).Pairwise fun a b => a.before.length < b.before.length := by
    unfold here
    split
    · cases pattern text with
      | none => exact .nil
      | some value => exact List.pairwise_singleton _ _
    · exact .nil
  induction text generalizing before with
  | nil => exact once [] before
  | cons c text ih =>
    refine List.pairwise_append.mpr ⟨once (c :: text) before, ih (before ++ [c]), fun a first b later => ?_⟩
    have behind := places_after later
    rw [List.length_append, List.length_singleton] at behind
    rw [(mem_here.mp first).1]
    exact behind

/-- The first place is the one with the least before it. -/
theorem first_place : (places pattern before text).head? = some place ↔ place ∈ places pattern before text ∧
    ∀ other ∈ places pattern before text, place.before.length ≤ other.before.length := by
  have ordered := places_ordered pattern before text
  cases all : places pattern before text with
  | nil => simp
  | cons first rest =>
    rw [all] at ordered
    obtain ⟨ahead, -⟩ := List.pairwise_cons.mp ordered
    rw [List.head?_cons, Option.some.injEq]
    constructor
    · rintro rfl
      refine ⟨List.mem_cons_self, fun other member => ?_⟩
      rcases List.mem_cons.mp member with rfl | later
      · exact le_rfl
      · exact (ahead other later).le
    · rintro ⟨member, least⟩
      rcases List.mem_cons.mp member with rfl | later
      · rfl
      · exact absurd (least first List.mem_cons_self) (not_le.mpr (ahead place later))

end Neonos.LineSearch
