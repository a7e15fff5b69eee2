import Mathlib

/-! The lab runner, `tools/lab.py` with `tools/lab_catalog.py`: grading a
student's files and packing them. The files are read one by one and may be
overwritten between any two reads. Printing, the log files and the clock are
left out. -/
namespace Neonos.Lab

abbrev Bytes := List UInt8

inductive ValueError where
  | metadata
  | notRegular (name : String)
  | unknownPart (known : List String)
  | modified
  deriving DecidableEq

def ValueError.message : ValueError → String
  | .metadata => "作业元数据不匹配本版课程"
  | .notRegular name => "作业文件必须是目录内的普通文件：" ++ name
  | .unknownPart known => "未知分项；可选：" ++ ", ".intercalate known
  | .modified => "评分期间作业被修改，请重新评分"

/-- A part of a lab: its label, points and command. -/
structure Part where
  label : String
  points : Nat
  command : List String

/-- Where the instructor's adapter is copied to. -/
def ADAPTER : String := "tests/scheduling_batch.py"

/-- What grading uses of a lab: no editable file is named twice, and none is the
instructor's adapter. -/
structure Spec where
  editable : List String
  parts : List Part
  nodup : editable.Nodup
  student : ADAPTER ∉ editable

def BASE : String := "4085c7d6cdc4a1e3289d70a9db7d9bbc04b5bf96"

def lab1 : Spec where
  editable := ["src/console.rs", "src/main.rs", "src/trap.rs"]
  parts := [⟨"console", 25, ["sh", "tests/lesson-02.sh"]⟩, ⟨"panic", 25, ["sh", "tests/lesson-03.sh"]⟩,
    ⟨"bss", 25, ["sh", "tests/lesson-04.sh"]⟩, ⟨"trap", 25, ["sh", "tests/lesson-05.sh"]⟩]
  nodup := by decide
  student := by decide

def lab2 : Spec where
  editable := ["src/process.rs", "src/syscall.rs", "src/user.rs", "src/user10.rs"]
  parts := [⟨"process", 20, ["sh", "tests/lesson-06.sh"]⟩, ⟨"syscall", 25, ["sh", "tests/lesson-08.sh"]⟩,
    ⟨"exit", 25, ["sh", "tests/lesson-09.sh"]⟩, ⟨"fault", 30, ["python3", "tests/user_batch.py"]⟩]
  nodup := by decide
  student := by decide

def lab3 : Spec where
  editable := ["experiments/scheduling.py", "experiments/mlfq.py", "src/scheduler.rs", "src/timer.rs"]
  parts := [
    ⟨"model", 20, ["python3", "tests/test_simulations.py",
      "SchedulingTests.test_hand_calculated_course_example",
      "SchedulingTests.test_arrival_before_rr_requeue",
      "SchedulingTests.test_empty_idle_zero_and_invalid"]⟩,
    ⟨"mlfq", 20, ["python3", "tests/test_simulations.py",
      "SchedulingTests.test_yield_does_not_reset_allotment",
      "SchedulingTests.test_blocked_boost_does_not_wake",
      "SchedulingTests.test_deterministic_comparison_and_conservation",
      "SchedulingTests.test_completion_precedes_demotion",
      "SchedulingTests.test_boost_after_allotment_expiry"]⟩,
    ⟨"yield", 20, ["python3", "tests/scheduling_batch.py", "--lesson", "12"]⟩,
    ⟨"timer", 20, ["python3", "tests/scheduling_batch.py", "--lesson", "13"]⟩,
    ⟨"preemption", 20, ["python3", "tests/scheduling_batch.py", "--lesson", "14", "--lesson", "15"]⟩]
  nodup := by decide
  student := by decide

def LABS : String → Option Spec
  | "lab1" => some lab1
  | "lab2" => some lab2
  | "lab3" => some lab3
  | _ => none

/-- `.neonos-lab.json`. -/
structure Metadata where
  version : Nat
  lab : String
  base : String
  reference : Bool

def workspace (metadata : Metadata) : Except ValueError Spec :=
  if metadata.version ≠ 1 ∨ metadata.base ≠ BASE then .error .metadata
  else match LABS metadata.lab with
    | none => .error .metadata
    | some spec => .ok spec

/-! ### The student's files -/

/-- The files of the student's directory; `none` is anything that is not a
regular file inside it. -/
abbrev Files := String → Option Bytes

structure Edit where
  name : String
  contents : Option Bytes

def overwrite (files : Files) (edit : Edit) : Files := Function.update files edit.name edit.contents

/-- The edits that come before each read, in order. -/
abbrev Edits := Nat → List Edit

/-- The files after the last read, and how many reads there were. -/
structure Desk where
  files : Files
  reads : Nat

def readStudent (edits : Edits) (desk : Desk) (name : String) : Except ValueError (Bytes × Desk) :=
  let files := (edits desk.reads).foldl overwrite desk.files
  match files name with
  | none => .error (.notRegular name)
  | some contents => .ok (contents, ⟨files, desk.reads + 1⟩)

/-- One read after another, each result put where the names' loop puts it. -/
def readEach (edits : Edits) (put : σ → String → Bytes → σ) :
    Desk → σ → List String → Except ValueError (σ × Desk)
  | desk, store, [] => .ok (store, desk)
  | desk, store, name :: names => do
    let (contents, desk) ← readStudent edits desk name
    readEach edits put desk (put store name contents) names

/-- The contents under each name that was read. -/
abbrev Payload := String → Bytes

/-- `{name: read_student(path, name) for name in names}`. -/
def readPayload (edits : Edits) (desk : Desk) (names : List String) : Except ValueError (Payload × Desk) :=
  readEach edits (fun payload name contents => Function.update payload name contents) desk (fun _ => []) names

/-- The bytes that `payload_fingerprint` hashes. -/
def framed (names : List String) (payload : Payload) : Bytes :=
  names.flatMap fun name => name.toUTF8.data.toList ++ [0] ++ payload name ++ [0]

def payloadFingerprint (sha256 : Bytes → δ) (spec : Spec) (payload : Payload) : δ :=
  sha256 (framed spec.editable payload)

def fingerprint (sha256 : Bytes → δ) (edits : Edits) (desk : Desk) (spec : Spec) :
    Except ValueError (δ × Desk) := do
  let (payload, desk) ← readPayload edits desk spec.editable
  .ok (payloadFingerprint sha256 spec payload, desk)

/-! ### Grading -/

/-- The files of the work tree. -/
abbrev Tree := String → Option Bytes

/-- The hash, the snapshot of the base commit, the instructor's adapter, and a
command with its effect on the work tree. -/
structure Grader (δ : Type) where
  sha256 : Bytes → δ
  snapshot : Tree
  adapter : Bytes
  execute : List String → Tree → Bool × String × Tree

/-- The copy of the editable files into the work tree. -/
def copyStudent (edits : Edits) (desk : Desk) (work : Tree) (names : List String) : Except ValueError (Tree × Desk) :=
  readEach edits (fun work name contents => Function.update work name (some contents)) desk work names

structure PartResult where
  part : String
  passed : Bool
  score : Nat
  total : Nat
  status : String

/-- A grade, as it is written to `grade.json`. -/
structure Grade (δ : Type) where
  lab : String
  base : String
  source_sha256 : δ
  reference : Bool
  parts : List PartResult
  score : Nat
  total : Nat
  complete : Bool

def runParts (grader : Grader δ) : Tree → List Part → List PartResult
  | _, [] => []
  | work, part :: parts =>
    let (passed, status, work) := grader.execute part.command work
    ⟨part.label, passed, if passed then part.points else 0, part.points, status⟩ :: runParts grader work parts

/-- `grade_locked`: the grade, with the work tree that its tests start from. -/
def gradeLocked [DecidableEq δ] (grader : Grader δ) (edits : Edits) (desk : Desk) (metadata : Metadata)
    (part : Option String) : Except ValueError (Grade δ × Tree) := do
  let spec ← workspace metadata
  let parts := spec.parts.filter fun p => part = none ∨ some p.label = part
  if parts = [] then .error (.unknownPart (spec.parts.map Part.label))
  else do
    let (digest, desk) ← fingerprint grader.sha256 edits desk spec
    let (work, desk) ← copyStudent edits desk grader.snapshot spec.editable
    let work := Function.update work ADAPTER (some grader.adapter)
    let results := runParts grader work parts
    let (final, _) ← fingerprint grader.sha256 edits desk spec
    if final ≠ digest then .error .modified
    else
      let score := (results.map PartResult.score).sum
      let total := (parts.map Part.points).sum
      .ok (⟨metadata.lab, BASE, digest, metadata.reference, results, score, total,
        decide (part = none ∧ score = total)⟩, work)

/-- The archive that `submit` writes. -/
structure Package (δ : Type) where
  payload : Payload
  metadata : Metadata
  source_sha256 : δ
  gradeCurrent : Bool
  grade : Option (Grade δ)

def submit [DecidableEq δ] (sha256 : Bytes → δ) (edits : Edits) (desk : Desk) (metadata : Metadata)
    (report : Option (Grade δ)) : Except ValueError (Package δ) := do
  let spec ← workspace metadata
  let (payload, _) ← readPayload edits desk (spec.editable ++ ["answers.md"])
  let digest := payloadFingerprint sha256 spec payload
  let current := report.any fun grade => grade.source_sha256 = digest
  .ok ⟨payload, metadata, digest, current, if current then report else none⟩

end Neonos.Lab
