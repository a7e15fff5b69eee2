import Mathlib
import Neonos.LabGrading
import Neonos.Separators

/-! What a fingerprint says about the files. Names and contents are hashed with
a zero byte after each, and the contents may hold zero bytes and names too. -/
namespace Neonos.Lab
open Separators

variable {names : List String} {payload other : Payload} {package : Package δ}

/-- What stands between the contents of the file before and those of this one. -/
def separator (name : String) : Bytes := 0 :: (name.toUTF8.data.toList ++ [0])

/-- What stands between two files stands there once. -/
def Separated (payload : Payload) : List String → Prop
  | [] => True
  | first :: rest => Readable separator payload (payload first) rest

theorem framed_spread (payload : Payload) (names : List String) :
    0 :: framed names payload = spread separator payload [0] names := by
  induction names with
  | nil => rfl
  | cons name names ih =>
    unfold spread
    rw [framed_cons, ih, separator]
    simp

theorem framed_first (payload : Payload) : framed (name :: names) payload =
    name.toUTF8.data.toList ++ 0 :: (payload name ++ spread separator payload [0] names) := by
  rw [framed_cons, framed_spread]

/-- The files are read back from the framed bytes exactly where they are separated. -/
theorem framed_identifies_iff (payload : Payload) (nodup : names.Nodup) :
    (∀ other, framed names payload = framed names other → ∀ name ∈ names, payload name = other name) ↔
      Separated payload names := by
  cases names with
  | nil => exact iff_of_true (fun other _ name member => absurd member List.not_mem_nil) trivial
  | cons first rest =>
    obtain ⟨fresh, nodup⟩ := List.nodup_cons.mp nodup
    have framing (other : Payload) : framed (first :: rest) payload = framed (first :: rest) other ↔
        payload first ++ spread separator payload [0] rest = other first ++ spread separator other [0] rest := by
      rw [framed_first, framed_first, List.append_right_inj, List.cons_inj_right]
    refine Iff.trans ⟨fun identifies lead text same => ?_, fun identifies other same => ?_⟩
      (readable_iff [0] nodup)
    · have kept : ∀ name ∈ rest, text name = Function.update text first lead name := by
        intro name member
        have different : name ≠ first := fun same => fresh (same ▸ member)
        exact (Function.update_of_ne different lead text).symm
      have all := identifies (Function.update text first lead) <| by
        rw [framing, Function.update_self, ← spread_congr kept, same]
      refine ⟨?_, fun name member => ?_⟩
      · have head := all first List.mem_cons_self
        rwa [Function.update_self] at head
      · rw [kept name member]
        exact all name (List.mem_cons_of_mem first member)
    · obtain ⟨head, later⟩ := identifies (other first) other ((framing other).mp same)
      intro name member
      rcases List.mem_cons.mp member with rfl | member
      · exact head
      · exact later name member

/-- Files without a zero byte are separated. -/
theorem plain_separated (plain : ∀ name ∈ names, 0 ∉ payload name) : Separated payload names := by
  cases names with
  | nil => trivial
  | cons first rest =>
    unfold Separated
    induction rest generalizing first with
    | nil => trivial
    | cons next rest ih =>
      have clear := plain first List.mem_cons_self
      have clear' := plain next (by simp)
      refine ⟨Once.of_mark rfl clear clear', ih next fun name member => plain name ?_⟩
      exact List.mem_cons_of_mem first member

/-! ### What `submit` calls current -/

theorem submit_current [DecidableEq δ] {sha256 : Bytes → δ} {grade : Grade δ} (known : workspace metadata = .ok spec)
    (packed : submit sha256 edits desk metadata (some grade) = .ok package) :
    package.gradeCurrent = true ↔ grade.source_sha256 = payloadFingerprint sha256 spec package.payload := by
  obtain ⟨found, same, packed⟩ := bind_ok.mp packed
  rw [known] at same
  cases same
  obtain ⟨⟨payload, after⟩, -, packed⟩ := bind_ok.mp packed
  cases packed
  simp

theorem readEach_still (put : σ → String → Bytes → σ) (contents : Payload) (names : List String) (reads : Nat)
    (store : σ) :
    readEach (fun _ => []) put ⟨fun name => some (contents name), reads⟩ store names =
      .ok (names.foldl (fun store name => put store name (contents name)) store,
        ⟨fun name => some (contents name), reads + names.length⟩) := by
  induction names generalizing reads store with
  | nil => rfl
  | cons name names ih =>
    rw [List.length_cons, Nat.add_comm names.length, ← Nat.add_assoc]
    exact ih (reads + 1) (put store name (contents name))

/-- Nobody overwrites these files, so `submit` packs them. -/
theorem submit_still [DecidableEq δ] (sha256 : Bytes → δ) (contents : Payload) (report : Option (Grade δ))
    (known : workspace metadata = .ok spec) :
    ∃ package, submit sha256 (fun _ => []) ⟨fun name => some (contents name), 0⟩ metadata report = .ok package ∧
      ∀ name ∈ spec.editable, package.payload name = contents name := by
  have read := readEach_still (fun payload name found => Function.update payload name found) contents
    (spec.editable ++ ["answers.md"]) 0 fun _ => []
  unfold submit
  rw [known]
  change ∃ package, (readPayload _ _ (spec.editable ++ ["answers.md"]) >>= _) = _ ∧ _
  unfold readPayload
  rw [read]
  refine ⟨_, rfl, fun name member => ?_⟩
  exact (foldl_update _ contents _ name).trans (if_pos (List.mem_append_left _ member))

/-- **What the fingerprint identifies.** With a hash that has no collisions, for
every lab and all contents: no other contents are hashed as these, and every
submission whose grade counts as current against a grade of these has these
files byte for byte, exactly when what the framing puts between two files stands
once in the text from the one through the other. -/
theorem fingerprint_identifies_iff [DecidableEq δ] (sha256 : Bytes → δ) (injective : Function.Injective sha256)
    (spec : Spec) (payload : Payload) :
    ((∀ other, framed spec.editable payload = framed spec.editable other →
        ∀ name ∈ spec.editable, payload name = other name) ↔ Separated payload spec.editable) ∧
    ∀ metadata (grade : Grade δ), workspace metadata = .ok spec →
      grade.source_sha256 = payloadFingerprint sha256 spec payload →
      ((∀ edits desk package, submit sha256 edits desk metadata (some grade) = .ok package →
          package.gradeCurrent = true → ∀ name ∈ spec.editable, package.payload name = payload name) ↔
        Separated payload spec.editable) := by
  have identifies := framed_identifies_iff payload spec.nodup
  refine ⟨identifies, fun metadata grade known recorded => ?_⟩
  rw [← identifies]
  constructor
  · intro current other same name member
    obtain ⟨package, packed, contents⟩ := submit_still sha256 other (some grade) known
    have digest : grade.source_sha256 = payloadFingerprint sha256 spec package.payload := by
      rw [recorded]
      unfold payloadFingerprint
      rw [framed_congr contents, same]
    have kept := current _ _ package packed ((submit_current known packed).mpr digest) name member
    rw [← kept, contents name member]
  · intro unique edits desk package packed current name member
    have digest := (submit_current known packed).mp current
    rw [recorded] at digest
    exact (unique package.payload (injective digest) name member).symm

/-- A grade of `lab1` for these contents, with the identity as its hash. -/
def gradeOf (contents : Payload) : Grade Bytes where
  lab := "lab1"
  base := BASE
  source_sha256 := payloadFingerprint id lab1 contents
  reference := false
  parts := []
  score := 100
  total := 100
  complete := true

def one : Payload := fun _ => [1]

theorem fingerprint_identifies_one :
    (∀ other, framed lab1.editable one = framed lab1.editable other → ∀ name ∈ lab1.editable, one name = other name) ∧
    ∀ edits desk package, submit id edits desk ⟨1, "lab1", BASE, false⟩ (some (gradeOf one)) = .ok package →
      package.gradeCurrent = true → ∀ name ∈ lab1.editable, package.payload name = one name := by
  have plain : Separated one lab1.editable := plain_separated fun name _ => by
    change (0 : UInt8) ∉ [1]
    decide
  obtain ⟨identifies, current⟩ := fingerprint_identifies_iff id Function.injective_id lab1 one
  exact ⟨identifies.mpr plain, (current ⟨1, "lab1", BASE, false⟩ (gradeOf one) rfl rfl).mpr plain⟩

/-- All but the one file is empty, and that holds what stands before `src/main.rs`. -/
def holding (file : String) : Payload := fun name => if name = file then separator "src/main.rs" else []

/-- What a grade was for is moved to another file, and the grade stays current. -/
theorem moved_contents_current :
    framed lab1.editable (holding "src/main.rs") = framed lab1.editable (holding "src/console.rs") ∧
    holding "src/main.rs" "src/main.rs" ≠ holding "src/console.rs" "src/main.rs" ∧
    ∃ package, submit id (fun _ => []) ⟨fun name => some (holding "src/console.rs" name), 0⟩
        ⟨1, "lab1", BASE, false⟩ (some (gradeOf (holding "src/main.rs"))) = .ok package ∧
      package.gradeCurrent = true ∧ package.payload "src/main.rs" ≠ holding "src/main.rs" "src/main.rs" := by
  refine ⟨by decide, by decide, _, rfl, by decide, by decide⟩

end Neonos.Lab
