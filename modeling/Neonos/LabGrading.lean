import Mathlib
import Neonos.Fallible
import Neonos.Model.Lab

/-! What a grade says about the files its tests ran on. The digest of a grade
and the graded copy come from different reads of the student's files. -/
namespace Neonos.Lab

variable {edits : Edits} {files : Files} {desk desk' : Desk} {spec : Spec} {names : List String}

/-! ### Reads in order -/

/-- The files as the read with this number finds them. -/
def held (edits : Edits) (files : Files) : Nat → Files
  | 0 => (edits 0).foldl overwrite files
  | k + 1 => (edits (k + 1)).foldl overwrite (held edits files k)

/-- The contents that a pass over these names finds when its first read has this number. -/
def seen (edits : Edits) (files : Files) (first : Nat) (names : List String) : Payload :=
  fun name => (held edits files (first + names.idxOf name) name).getD []

/-- A desk in a run that began with these files. -/
def Desk.Follows (edits : Edits) (files : Files) (desk : Desk) : Prop :=
  (edits desk.reads).foldl overwrite desk.files = held edits files desk.reads

theorem readStudent_held (follows : desk.Follows edits files) (read : readStudent edits desk name = .ok (contents, desk')) :
    held edits files desk.reads name = some contents ∧ desk'.reads = desk.reads + 1 ∧ desk'.Follows edits files := by
  unfold readStudent at read
  dsimp only at read
  rw [follows] at read
  split at read
  · cases read
  · rename_i found
    cases read
    exact ⟨found, rfl, rfl⟩

theorem seen_head : seen edits files first (name :: names) name = (held edits files first name).getD [] := by
  unfold seen
  rw [List.idxOf_cons_self, Nat.add_zero]

theorem seen_tail (other : name ≠ later) :
    seen edits files first (name :: names) later = seen edits files (first + 1) names later := by
  unfold seen
  rw [List.idxOf_cons, beq_eq_false_iff_ne.mpr other, cond_false, Nat.add_assoc, Nat.add_comm 1]

/-- A pass of reads puts under each name what `seen` says. -/
theorem readEach_seen {put : σ → String → Bytes → σ} (follows : desk.Follows edits files) (nodup : names.Nodup)
    (read : readEach edits put desk store names = .ok (store', desk')) :
    desk'.reads = desk.reads + names.length ∧ desk'.Follows edits files ∧
      store' = names.foldl (fun store name => put store name (seen edits files desk.reads names name)) store := by
  induction names generalizing desk store with
  | nil =>
    cases read
    exact ⟨rfl, follows, rfl⟩
  | cons name names following =>
    obtain ⟨fresh, nodup⟩ := List.nodup_cons.mp nodup
    obtain ⟨⟨contents, next⟩, first, rest⟩ := bind_ok.mp read
    obtain ⟨found, reads, follows⟩ := readStudent_held follows first
    obtain ⟨count, follows', folded⟩ := following follows nodup rest
    refine ⟨?_, follows', ?_⟩
    · rw [count, reads, List.length_cons, Nat.add_assoc, Nat.add_comm 1]
    · have head : seen edits files desk.reads (name :: names) name = contents := by
        rw [seen_head, found]
        rfl
      rw [folded, List.foldl_cons, head]
      apply List.foldl_ext _ _ _
      intro store later mem
      have other : name ≠ later := fun same => fresh (same ▸ mem)
      rw [seen_tail other, reads]

theorem foldl_update {ι α : Type} [DecidableEq ι] (f : ι → α) (g : ι → α) (names : List ι) (name : ι) :
    names.foldl (fun f name => Function.update f name (g name)) f name = if name ∈ names then g name else f name := by
  induction names generalizing f with
  | nil => rfl
  | cons first names following =>
    rw [List.foldl_cons, following]
    by_cases same : name = first
    · subst same
      simp
    · simp [same]

theorem readPayload_seen (follows : desk.Follows edits files) (nodup : names.Nodup)
    (read : readPayload edits desk names = .ok (payload, desk')) :
    desk'.reads = desk.reads + names.length ∧ desk'.Follows edits files ∧
      ∀ name ∈ names, payload name = seen edits files desk.reads names name := by
  obtain ⟨count, follows', rfl⟩ := readEach_seen follows nodup read
  refine ⟨count, follows', ?_⟩
  intro name mem
  rw [foldl_update, if_pos mem]

theorem copyStudent_seen (follows : desk.Follows edits files) (nodup : names.Nodup)
    (copied : copyStudent edits desk work names = .ok (work', desk')) :
    desk'.reads = desk.reads + names.length ∧ desk'.Follows edits files ∧
      ∀ name ∈ names, work' name = some (seen edits files desk.reads names name) := by
  obtain ⟨count, follows', rfl⟩ := readEach_seen follows nodup copied
  refine ⟨count, follows', ?_⟩
  intro name mem
  rw [foldl_update work fun name => some (seen edits files desk.reads names name), if_pos mem]

/-! ### Fingerprints -/

theorem framed_cons (payload : Payload) : framed (name :: names) payload =
    name.toUTF8.data.toList ++ 0 :: (payload name ++ 0 :: framed names payload) := by
  simp [framed]

theorem framed_congr {payload other : Payload} (same : ∀ name ∈ names, payload name = other name) :
    framed names payload = framed names other := by
  unfold framed
  apply List.flatMap_congr
  intro name mem
  rw [same name mem]

theorem takeWhile_marked {bytes rest : Bytes} (plain : 0 ∉ bytes) :
    (bytes ++ 0 :: rest).takeWhile (· ≠ 0) = bytes := by
  induction bytes with
  | nil => rfl
  | cons byte bytes following =>
    obtain ⟨other, plain⟩ := List.ne_and_not_mem_of_not_mem_cons plain
    have kept : decide (byte ≠ 0) = true := decide_eq_true (Ne.symm other)
    rw [List.cons_append, List.takeWhile_cons, if_pos kept, following plain]

/-- Contents without a zero byte are read back from the framed bytes. -/
theorem framed_injective {payload other : Payload} (plain : ∀ name ∈ names, 0 ∉ payload name ∧ 0 ∉ other name)
    (same : framed names payload = framed names other) : ∀ name ∈ names, payload name = other name := by
  induction names with
  | nil => exact fun name mem => absurd mem List.not_mem_nil
  | cons first names following =>
    rw [framed_cons, framed_cons] at same
    have tails := List.cons_injective (List.append_cancel_left same)
    obtain ⟨mine, theirs⟩ := plain first List.mem_cons_self
    have head : payload first = other first := by
      rw [← takeWhile_marked mine, tails, takeWhile_marked theirs]
    rw [head] at tails
    have rest := List.cons_injective (List.append_cancel_left tails)
    intro name mem
    rcases List.mem_cons.mp mem with rfl | mem
    · exact head
    · exact following (fun later mem => plain later (List.mem_cons_of_mem first mem)) rest name mem

/-! ### Grades -/

theorem fingerprint_seen {digest : δ} (follows : desk.Follows edits files)
    (taken : fingerprint sha256 edits desk spec = .ok (digest, desk')) :
    desk'.reads = desk.reads + spec.editable.length ∧ desk'.Follows edits files ∧
      digest = payloadFingerprint sha256 spec (seen edits files desk.reads spec.editable) := by
  obtain ⟨⟨payload, next⟩, read, hashed⟩ := bind_ok.mp taken
  cases hashed
  obtain ⟨count, follows', each⟩ := readPayload_seen follows spec.nodup read
  refine ⟨count, follows', ?_⟩
  unfold payloadFingerprint
  rw [framed_congr each]

/-- The editable files as a tree holds them. -/
def Tree.payload (work : Tree) : Payload := fun name => (work name).getD []

/-- A grade's digest is of the first pass of reads and its work tree of the second. -/
theorem gradeLocked_reads [DecidableEq δ] {grader : Grader δ} {report : Grade δ} (known : workspace metadata = .ok spec)
    (graded : gradeLocked grader edits ⟨files, 0⟩ metadata part = .ok (report, work)) :
    report.source_sha256 = payloadFingerprint grader.sha256 spec (seen edits files 0 spec.editable) ∧
      ∀ name ∈ spec.editable, work.payload name = seen edits files spec.editable.length spec.editable name := by
  unfold gradeLocked at graded
  obtain ⟨found, same, graded⟩ := bind_ok.mp graded
  rw [known] at same
  cases same
  dsimp only at graded
  split at graded
  · cases graded
  · obtain ⟨⟨digest, copying⟩, taken, graded⟩ := bind_ok.mp graded
    obtain ⟨⟨copy, checking⟩, copied, graded⟩ := bind_ok.mp graded
    obtain ⟨⟨final, finished⟩, checked, graded⟩ := bind_ok.mp graded
    dsimp only at graded
    split at graded
    · cases graded
    · cases graded
      have start : Desk.Follows edits files ⟨files, 0⟩ := rfl
      obtain ⟨count, follows, hashed⟩ := fingerprint_seen start taken
      obtain ⟨-, -, each⟩ := copyStudent_seen follows spec.nodup copied
      rw [Nat.zero_add] at count
      rw [count] at each
      refine ⟨hashed, ?_⟩
      intro name mem
      have other : name ≠ ADAPTER := fun same => spec.student (same ▸ mem)
      unfold Tree.payload
      rw [Function.update_of_ne other, each name mem]
      rfl

/-- **The graded copy.** With a hash that has no collisions, the files a grade's
tests ran on have its digest exactly when the copy's reads found what the first
fingerprint's reads had found: byte for byte as the fingerprint frames them, and
file by file where no file holds a zero byte. -/
theorem graded_copy [DecidableEq δ] (grader : Grader δ) (injective : Function.Injective grader.sha256)
    (known : workspace metadata = .ok spec)
    (graded : gradeLocked grader edits ⟨files, 0⟩ metadata part = .ok (report, work)) :
    (payloadFingerprint grader.sha256 spec work.payload = report.source_sha256 ↔
      framed spec.editable (seen edits files spec.editable.length spec.editable) =
        framed spec.editable (seen edits files 0 spec.editable)) ∧
    ((∀ name ∈ spec.editable, 0 ∉ seen edits files spec.editable.length spec.editable name ∧
        0 ∉ seen edits files 0 spec.editable name) →
      (payloadFingerprint grader.sha256 spec work.payload = report.source_sha256 ↔
        ∀ name ∈ spec.editable, seen edits files spec.editable.length spec.editable name =
          seen edits files 0 spec.editable name)) := by
  obtain ⟨digest, copied⟩ := gradeLocked_reads known graded
  have framing : payloadFingerprint grader.sha256 spec work.payload = report.source_sha256 ↔
      framed spec.editable (seen edits files spec.editable.length spec.editable) =
        framed spec.editable (seen edits files 0 spec.editable) := by
    rw [digest]
    unfold payloadFingerprint
    rw [framed_congr copied]
    exact injective.eq_iff
  refine ⟨framing, ?_⟩
  intro plain
  rw [framing]
  exact ⟨framed_injective plain, framed_congr⟩

def lessonGrader : Grader Bytes where
  sha256 := id
  snapshot := fun _ => none
  adapter := []
  execute := fun _ work => (true, "PASS", work)

/-- `src/console.rs` is overwritten before the copy reads it, with an edit that is
undone before the last fingerprint. -/
def revertedEdits : Edits
  | 3 => [⟨"src/console.rs", some [2, 2]⟩]
  | 6 => [⟨"src/console.rs", some [1]⟩]
  | _ => []

theorem reverted_copy_graded : ∃ report work,
    gradeLocked lessonGrader revertedEdits ⟨fun _ => some [1], 0⟩ ⟨1, "lab1", BASE, false⟩ none = .ok (report, work) ∧
      Function.Injective lessonGrader.sha256 ∧
      payloadFingerprint lessonGrader.sha256 lab1 work.payload ≠ report.source_sha256 := by
  refine ⟨_, _, rfl, fun _ _ => id, ?_⟩
  decide

theorem graded_copy_reverted : ∃ report work,
    gradeLocked lessonGrader revertedEdits ⟨fun _ => some [1], 0⟩ ⟨1, "lab1", BASE, false⟩ none = .ok (report, work) ∧
    (payloadFingerprint lessonGrader.sha256 lab1 work.payload = report.source_sha256 ↔
      framed lab1.editable (seen revertedEdits (fun _ => some [1]) lab1.editable.length lab1.editable) =
        framed lab1.editable (seen revertedEdits (fun _ => some [1]) 0 lab1.editable)) ∧
    (payloadFingerprint lessonGrader.sha256 lab1 work.payload = report.source_sha256 ↔
      ∀ name ∈ lab1.editable,
        seen revertedEdits (fun _ => some [1]) lab1.editable.length lab1.editable name =
          seen revertedEdits (fun _ => some [1]) 0 lab1.editable name) := by
  have known : workspace ⟨1, "lab1", BASE, false⟩ = .ok lab1 := rfl
  obtain ⟨report, work, graded⟩ : ∃ report work, gradeLocked lessonGrader revertedEdits ⟨fun _ => some [1], 0⟩
      ⟨1, "lab1", BASE, false⟩ none = .ok (report, work) := ⟨_, _, rfl⟩
  have plain : ∀ name ∈ lab1.editable,
      0 ∉ seen revertedEdits (fun _ => some [1]) lab1.editable.length lab1.editable name ∧
      0 ∉ seen revertedEdits (fun _ => some [1]) 0 lab1.editable name := by decide
  obtain ⟨framing, files⟩ := graded_copy lessonGrader (fun _ _ => id) known graded
  exact ⟨report, work, graded, framing, files plain⟩

/-- What `submit` packs has the digest it records, whatever is overwritten meanwhile. -/
theorem submit_digest [DecidableEq δ] {sha256 : Bytes → δ} {package : Package δ} (known : workspace metadata = .ok spec)
    (packed : submit sha256 edits desk metadata report = .ok package) :
    package.source_sha256 = payloadFingerprint sha256 spec package.payload := by
  obtain ⟨found, same, packed⟩ := bind_ok.mp packed
  rw [known] at same
  cases same
  obtain ⟨⟨payload, after⟩, -, packed⟩ := bind_ok.mp packed
  cases packed
  rfl

end Neonos.Lab
