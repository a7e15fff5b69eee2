import Neonos.ReadyQueue
import Neonos.Runs

/-! The flat queue under any sequence of calls. A waiting line says what the
calls are for; the array answers as the line does and holds its members,
whatever past removals have left in the slots from the length on. -/
namespace Neonos.Scheduler
open StableChoice Runs

/-- A call on the queue; a pop reads the task table as it is then. -/
inductive QueueCall where
  | push (id : Nat)
  | pop (tasks : TaskId → Task) (mlfq : Bool)

inductive QueueAnswer where
  | pushed (result : Except PushError Unit)
  | popped (id : Option TaskId)

namespace Ready

/-- What a call returns, and the queue it leaves. -/
def serve (q : Ready) : QueueCall → QueueAnswer × Ready
  | .push id =>
    match q.push id with
    | .ok q' => (.pushed (.ok ()), q')
    | .error error => (.pushed (.error error), q)
  | .pop tasks mlfq =>
    match q.pop tasks mlfq with
    | some (id, q') => (.popped (some id), q')
    | none => (.popped none, q)

/-- Calls one after the other, each with its answer. -/
def serves (q : Ready) : List QueueCall → List (QueueCall × QueueAnswer) × Ready
  | [] => ([], q)
  | call :: calls =>
    ((call, (q.serve call).1) :: ((q.serve call).2.serves calls).1, ((q.serve call).2.serves calls).2)

end Ready

/-! ### The waiting line -/

/-- Why a line does not take an id, in the order in which the reasons are asked for. -/
def refusal (line : List TaskId) (id : Nat) : PushError :=
  if N ≤ id then .badTaskId else if line.length = N then .queueFull else .duplicateTask

/-- What a call does to a waiting line. -/
inductive Serves : List TaskId → QueueCall × QueueAnswer → List TaskId → Prop where
  | joins {i : TaskId} (fresh : i ∉ line) : Serves line (.push i.val, .pushed (.ok ())) (line ++ [i])
  | refuses {id : Nat} (bad : N ≤ id ∨ ∃ i ∈ line, i.val = id) :
      Serves line (.push id, .pushed (.error (refusal line id))) line
  | nobody : Serves [] (.pop tasks mlfq, .popped none) []
  | head : Serves (i :: rest) (.pop tasks false, .popped (some i)) rest
  | first (taken : Takes (fun i => (tasks i).level) line i rest) :
      Serves line (.pop tasks true, .popped (some i)) rest

variable {line line' : List TaskId} {q q' : Ready}

theorem Serves.distinct (serves : Serves line e line') (distinct : line.Nodup) : line'.Nodup := by
  cases serves with
  | @joins _ i fresh =>
    refine List.nodup_append.mpr ⟨distinct, List.nodup_singleton i, ?_⟩
    rintro j waits _ last rfl
    exact fresh (List.mem_singleton.mp last ▸ waits)
  | refuses | nobody => exact distinct
  | head => exact (List.nodup_cons.mp distinct).2
  | first taken => exact (taken.nodup distinct).2

/-- The line leaves no choice: the call fixes the answer and who waits then. -/
theorem Serves.once (first : Serves line (call, answer) line₁) (second : Serves line (call, answer') line₂) :
    answer = answer' ∧ line₁ = line₂ := by
  cases first with
  | @joins _ i fresh =>
    generalize known : i.val = id at second
    cases second with
    | @joins _ j _ =>
      obtain rfl := Fin.ext known
      exact ⟨rfl, rfl⟩
    | refuses bad =>
      rcases bad with beyond | ⟨j, waits, rfl⟩
      · omega
      · obtain rfl := Fin.ext known
        exact absurd waits fresh
  | @refuses _ id bad =>
    cases second with
    | @joins _ j fresh =>
      rcases bad with beyond | ⟨i, waits, same⟩
      · omega
      · obtain rfl := Fin.ext same
        exact absurd waits fresh
    | refuses => exact ⟨rfl, rfl⟩
  | nobody =>
    cases second with
    | nobody => exact ⟨rfl, rfl⟩
    | first taken => exact absurd taken.mem (by simp)
  | head =>
    cases second with
    | head => exact ⟨rfl, rfl⟩
  | first taken =>
    cases second with
    | nobody => exact absurd taken.mem (by simp)
    | first taken' =>
      obtain ⟨rfl, rfl⟩ := taken.once taken'
      exact ⟨rfl, rfl⟩

/-! ### The array -/

namespace Ready

theorem push_error {id : Nat} (distinct : q.contents.Nodup) (refused : q.push id = .error error) :
    (N ≤ id ∨ ∃ i ∈ q.contents, i.val = id) ∧ error = refusal q.contents id := by
  by_cases known : id < N
  · have waits : (⟨id, known⟩ : TaskId) ∈ q.contents := by
      by_contra fresh
      obtain ⟨q', pushed⟩ := push_succeeds distinct fresh
      exact absurd (refused.symm.trans pushed) (by simp)
    refine ⟨.inr ⟨_, waits, rfl⟩, ?_⟩
    rw [push, dif_pos known] at refused
    rw [refusal, if_neg (Nat.not_le.mpr known), length_contents]
    by_cases full : q.len = N
    · rw [dif_pos full] at refused
      rw [if_pos full]
      exact (Except.error.inj refused).symm
    · rw [dif_neg full, if_pos waits] at refused
      rw [if_neg full]
      exact (Except.error.inj refused).symm
  · rw [push, dif_neg known] at refused
    rw [refusal, if_pos (Nat.not_lt.mp known)]
    exact ⟨.inl (Nat.not_lt.mp known), (Except.error.inj refused).symm⟩

/-- Each call does to the contents what it does to a waiting line. -/
theorem serve_serves (distinct : q.contents.Nodup) (call : QueueCall) :
    Serves q.contents (call, (q.serve call).1) (q.serve call).2.contents := by
  cases call with
  | push id =>
    cases pushed : q.push id with
    | ok q' =>
      have known : id < N := by
        by_contra beyond
        rw [push, dif_neg beyond] at pushed
        cases pushed
      obtain ⟨fresh, longer⟩ := push_ok (i := ⟨id, known⟩) pushed
      simp only [serve, pushed, longer]
      exact .joins fresh
    | error error =>
      obtain ⟨bad, rfl⟩ := push_error distinct pushed
      simp only [serve, pushed]
      exact .refuses bad
  | pop tasks mlfq =>
    cases popped : q.pop tasks mlfq with
    | none =>
      have empty := pop_none.mp popped
      simp only [serve, popped, empty]
      exact .nobody
    | some chosen =>
      obtain ⟨i, q'⟩ := chosen
      have taken := pop_takes popped
      simp only [serve, popped]
      cases mlfq with
      | false =>
        rw [taken.head fun _ _ _ _ => lt_irrefl 0]
        exact .head
      | true => exact .first taken

theorem serve_distinct (distinct : q.contents.Nodup) (call : QueueCall) : (q.serve call).2.contents.Nodup :=
  (serve_serves distinct call).distinct distinct

theorem serves_calls (q : Ready) (calls : List QueueCall) : (q.serves calls).1.map Prod.fst = calls := by
  induction calls generalizing q with
  | nil => rfl
  | cons call calls ih => simp [serves, ih]

theorem serves_run (distinct : q.contents.Nodup) (calls : List QueueCall) :
    Run Serves q.contents (q.serves calls).1 (q.serves calls).2.contents := by
  induction calls generalizing q with
  | nil => exact .nil
  | cons call calls ih => exact .cons (serve_serves distinct call) (ih (serve_distinct distinct call))

/-- A waiting line that takes the same calls goes the queue's way. -/
theorem serves_only (distinct : q.contents.Nodup) (run : Run Serves q.contents history line) :
    history = (q.serves (history.map Prod.fst)).1 ∧ line = (q.serves (history.map Prod.fst)).2.contents := by
  induction history generalizing q with
  | nil => exact ⟨rfl, run.of_nil.symm⟩
  | cons e history ih =>
    obtain ⟨call, answer⟩ := e
    obtain ⟨middle, first, rest⟩ := run.uncons
    obtain ⟨rfl, rfl⟩ := first.once (serve_serves distinct call)
    obtain ⟨same, last⟩ := ih (serve_distinct distinct call) rest
    exact ⟨congrArg _ same, last⟩

end Ready

/-- The queue is a waiting line without repetitions. After any calls, each pop
with the levels of its own moment, the line that has taken the same calls is
one and only: its answers are the queue's and its members are the contents.
Queues of equal contents answer all later calls alike, whatever their stale
slots hold. -/
theorem calls_refine_line (calls : List QueueCall) :
    (Ready.new.serves calls).2.contents.Nodup ∧
    (∀ history line, history.map Prod.fst = calls → (Run Serves [] history line ↔
      history = (Ready.new.serves calls).1 ∧ line = (Ready.new.serves calls).2.contents)) ∧
    ∀ stale : Ready, stale.contents = (Ready.new.serves calls).2.contents → ∀ later,
      (stale.serves later).1 = ((Ready.new.serves calls).2.serves later).1 ∧
      (stale.serves later).2.contents = ((Ready.new.serves calls).2.serves later).2.contents := by
  have empty : Ready.new.contents.Nodup := by simp
  have distinct : (Ready.new.serves calls).2.contents.Nodup :=
    (Ready.serves_run empty calls).preserves List.Nodup (fun _ _ _ distinct step => step.distinct distinct)
      empty
  refine ⟨distinct, ?_, ?_⟩
  · rintro history line rfl
    rw [← Ready.contents_new]
    constructor
    · exact Ready.serves_only empty
    · rintro ⟨same, rfl⟩
      have run := Ready.serves_run empty (history.map Prod.fst)
      rwa [← same] at run
  · intro stale same later
    have run := Ready.serves_run (same ▸ distinct) later
    rw [same] at run
    have only := Ready.serves_only distinct run
    rwa [Ready.serves_calls] at only

/-! ### The probe -/

/-- The calls `batch` makes on a queue of its own before it creates any task,
with what it asserts of each. -/
def probe (tasks : TaskId → Task) : List (QueueCall × QueueAnswer) :=
  [(.pop tasks false, .popped none), (.push 0, .pushed (.ok ())),
    (.push 0, .pushed (.error .duplicateTask))] ++
  (List.range' 1 (N - 1)).map (fun i => (.push i, .pushed (.ok ()))) ++
  [(.push 0, .pushed (.error .queueFull))] ++
  (List.finRange N).map (fun i => (.pop tasks false, .popped (some i))) ++
  [(.pop tasks false, .popped none)]

/-- The probe never stops a batch: a waiting line gives these answers. -/
theorem probe_passes (tasks : TaskId → Task) :
    (Ready.new.serves ((probe tasks).map Prod.fst)).1 = probe tasks := by
  have joins (k : Nat) (known : k < N) (line : List TaskId) (fresh : ⟨k, known⟩ ∉ line) :
      Serves line (.push k, .pushed (.ok ())) (line ++ [⟨k, known⟩]) := .joins fresh
  have duplicate : Serves [⟨0, by decide⟩] (.push 0, .pushed (.error .duplicateTask)) [⟨0, by decide⟩] :=
    .refuses (.inr ⟨⟨0, by decide⟩, by decide, rfl⟩)
  have full : Serves (List.finRange N) (.push 0, .pushed (.error .queueFull)) (List.finRange N) :=
    .refuses (.inr ⟨⟨0, by decide⟩, by decide, rfl⟩)
  have run : Run Serves [] (probe tasks) [] :=
    .cons .nobody (.cons (joins 0 (by decide) _ (by decide)) (.cons duplicate
      (.cons (joins 1 (by decide) _ (by decide)) (.cons (joins 2 (by decide) _ (by decide))
      (.cons (joins 3 (by decide) _ (by decide)) (.cons full
      (.cons .head (.cons .head (.cons .head (.cons .head (.cons .nobody .nil)))))))))))
  rw [← Ready.contents_new] at run
  exact (Ready.serves_only (by simp) run).1.symm

end Neonos.Scheduler
