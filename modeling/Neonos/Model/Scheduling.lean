import Mathlib
import Neonos.StableChoice
import Neonos.WhileLoop

/-! `experiments/scheduling.py`: the FCFS, SJF and RR simulators of lesson 11,
one loop from slice to slice. Jobs are positions in the input. -/
namespace Neonos.Scheduling
open StableChoice WhileLoop

structure Job where
  name : String
  arrival : Int
  service : Int

inductive Policy where
  | fcfs
  | sjf
  | rr
  deriving DecidableEq

inductive Failure where
  | valueError (message : String)
  | assertionError
  | keyError
  deriving DecidableEq

/-- Jobs that passed validation. -/
structure Workload (n : Nat) where
  name : Fin n → String
  arrival : Fin n → Nat
  service : Fin n → Nat
  distinct : Function.Injective name

/-- The checks on the jobs, in the order the source makes them. -/
def validate (jobs : Fin n → Job) : Except Failure (Workload n) :=
  if distinct : Function.Injective fun i => (jobs i).name then
    if ∃ i, (jobs i).arrival < 0 ∨ (jobs i).service < 0 then
      .error (.valueError "negative arrival/service")
    else .ok ⟨_, fun i => (jobs i).arrival.toNat, fun i => (jobs i).service.toNat, distinct⟩
  else .error (.valueError "duplicate job id")

/-- An entry of `trace`. -/
structure Slice (ι : Type) where
  job : ι
  start : Nat
  stop : Nat
  deriving DecidableEq

structure State (n : Nat) where
  now : Nat
  pending : List (Fin n)
  ready : List (Fin n)
  remaining : Fin n → Nat
  first : Fin n → Option Nat
  done : Fin n → Option Nat
  trace : List (Slice (Fin n))

namespace State

/-- `while pending or ready`. -/
def Going (s : State n) : Prop := s.pending ≠ [] ∨ s.ready ≠ []

instance (s : State n) : Decidable s.Going := inferInstanceAs (Decidable (_ ∨ _))

def duration (s : State n) (policy : Policy) (quantum : Nat) (i : Fin n) : Nat :=
  match policy with
  | .rr => min (s.remaining i) quantum
  | .fcfs | .sjf => s.remaining i

/-- From `first.setdefault` to `done[i] = now`: one slice. -/
def work (s : State n) (policy : Policy) (quantum : Nat) (i : Fin n) (ready : List (Fin n)) : State n :=
  let stop := s.now + s.duration policy quantum i
  let left := s.remaining i - s.duration policy quantum i
  { s with
    now := stop
    ready := ready
    remaining := Function.update s.remaining i left
    first := Function.update s.first i (some ((s.first i).getD s.now))
    done := if left = 0 then Function.update s.done i (some stop) else s.done
    trace := s.trace ++ [⟨i, s.now, stop⟩] }

/-- `if remaining[i]: ready.append(i)`. -/
def requeue (s : State n) (i : Fin n) : State n :=
  if s.remaining i = 0 then s else { s with ready := s.ready ++ [i] }

end State

structure Metrics where
  response : Int
  turnaround : Int
  deriving DecidableEq

/-- `result` and `trace`, the value of `simulate`. -/
structure Report (n : Nat) where
  result : Fin n → Metrics
  trace : List (Slice String)
  deriving DecidableEq

namespace Workload
variable (w : Workload n) (policy : Policy) (quantum : Nat)

/-- The key that `pending` is sorted by. -/
def joins (i : Fin n) : Nat ×ₗ Fin n := toLex (w.arrival i, i)

def start : State n where
  now := 0
  pending := (List.finRange n).insertionSort fun i j => w.joins i ≤ w.joins j
  ready := []
  remaining := w.service
  first _ := none
  done _ := none
  trace := []

/-- `pending.popleft()` and what `arrive` does with the job. -/
def receive (s : State n) (i : Fin n) (rest : List (Fin n)) : State n :=
  if w.service i = 0 then
    { s with
      pending := rest
      first := Function.update s.first i (some (w.arrival i))
      done := Function.update s.done i (some (w.arrival i)) }
  else { s with pending := rest, ready := s.ready ++ [i] }

/-- The loop of `arrive`, over what is left of `pending`. -/
def arriveFrom : List (Fin n) → State n → State n
  | [], s => s
  | i :: rest, s => if w.arrival i ≤ s.now then arriveFrom rest (w.receive s i rest) else s

def arrive (s : State n) : State n := w.arriveFrom s.pending s

/-- `now = max(now, jobs[pending[0]].arrival)` when nothing is ready. -/
def jump (s : State n) : State n :=
  match s.ready, s.pending with
  | [], i :: _ => { s with now := max s.now (w.arrival i) }
  | _, _ => s

/-- The key of the SJF selection. -/
def shortest (s : State n) (i : Fin n) : Nat ×ₗ Nat ×ₗ Fin n :=
  toLex (s.remaining i, toLex (w.arrival i, i))

/-- The job that is selected and `ready` without it. -/
def select (s : State n) : Option (Fin n × List (Fin n)) :=
  match policy with
  | .sjf => (least (w.shortest s) s.ready).map fun i => (i, s.ready.erase i)
  | .fcfs | .rr => s.ready.head?.map fun i => (i, s.ready.tail)

/-- One pass through the body of the main loop. -/
def pass (s : State n) : State n :=
  let s := w.arrive (w.jump s)
  match w.select policy s with
  | none => s
  | some (i, ready) => (w.arrive (s.work policy quantum i ready)).requeue i

/-- The loop takes `s` to `t`. -/
def Leads (s t : State n) : Prop :=
  Ends State.Going (fun s => (.ok (w.pass policy quantum s) : Except Failure _)) s (.ok t)

/-- A slice under the name of its job. -/
def label (x : Slice (Fin n)) : Slice String := ⟨w.name x.job, x.start, x.stop⟩

/-- What follows the loop: both assertions and the lookups in `first` and `done`. -/
def report (s : State n) : Except Failure (Report n) :=
  if (s.trace.map fun x => (x.stop : Int) - x.start).sum ≠ ∑ i, (w.service i : Int) then
    .error .assertionError
  else if ∃ i, s.first i = none ∨ s.done i = none then .error .keyError
  else
    let result i : Metrics :=
      ⟨(s.first i).getD 0 - w.arrival i, (s.done i).getD 0 - w.arrival i⟩
    if ∀ i, 0 ≤ (result i).response ∧ (result i).response ≤ (result i).turnaround then
      .ok ⟨result, s.trace.map w.label⟩
    else .error .assertionError

/-- `simulate` returns this report. -/
def Returns (r : Report n) : Prop :=
  ∃ t, w.Leads policy quantum w.start t ∧ w.report t = .ok r

end Workload

/-- `simulate` with a bound on the turns of its loop. -/
def simulate (fuel : Nat) (jobs : Fin n → Job) (policy : Policy) (quantum : Int) :
    Option (Except Failure (Report n)) :=
  if quantum ≤ 0 then some (.error (.valueError "invalid policy/quantum"))
  else
    match validate jobs with
    | .error failure => some (.error failure)
    | .ok w =>
      (loop State.Going (fun s => .ok (w.pass policy quantum.toNat s)) fuel w.start).map
        fun ended => ended.bind w.report

end Neonos.Scheduling
