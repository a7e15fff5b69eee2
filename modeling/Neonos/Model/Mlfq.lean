import Mathlib
import Neonos.StableChoice
import Neonos.WhileLoop

/-! `experiments/mlfq.py`: the RR and MLFQ simulator of lesson 15, tick by tick,
with voluntary yields and simulated I/O. Jobs are positions in the input. -/
namespace Neonos.Mlfq
open StableChoice WhileLoop

structure Job where
  name : String
  arrival : Int
  service : Int
  burst : Int
  wait : Int

inductive Policy where
  | rr
  | mlfq
  deriving DecidableEq

inductive Failure where
  | valueError (message : String)
  | assertionError
  | typeError
  deriving DecidableEq

/-- Jobs that passed validation. -/
structure Workload (n : Nat) where
  name : Fin n → String
  arrival : Fin n → Nat
  service : Fin n → Nat
  burst : Fin n → Nat
  wait : Fin n → Nat
  distinct : Function.Injective name
  waits : ∀ i, wait i ≠ 0 → burst i ≠ 0

/-- The checks on the jobs. -/
def validate (jobs : Fin n → Job) : Except Failure (Workload n) :=
  if distinct : Function.Injective fun i => (jobs i).name then
    if proper : ∀ i, 0 ≤ (jobs i).arrival ∧ 0 ≤ (jobs i).service ∧ 0 ≤ (jobs i).burst ∧
        0 ≤ (jobs i).wait ∧ ((jobs i).wait ≠ 0 → (jobs i).burst ≠ 0) then
      .ok {
        name := _
        arrival i := (jobs i).arrival.toNat
        service i := (jobs i).service.toNat
        burst i := (jobs i).burst.toNat
        wait i := (jobs i).wait.toNat
        distinct
        waits i := by have both := proper i; omega }
    else .error (.valueError "invalid workload")
  else .error (.valueError "invalid workload")

inductive Phase where
  | new
  | ready
  | running
  | blocked
  | done
  deriving DecidableEq

/-- Three levels. -/
instance levels : NeZero 3 := ⟨by decide⟩

/-- An entry of `states`. -/
structure Entry where
  left : Nat
  level : Fin 3
  slice : Int
  allot : Int
  used : Nat
  wake : Nat
  phase : Phase
  first : Option Nat
  done : Option Nat
  readyAt : Nat
  maxWait : Nat

/-- An entry of `trace`. -/
structure Tick (ι : Type) where
  time : Nat
  job : ι
  level : Fin 3
  deriving DecidableEq

/-- An entry of `events`. -/
inductive Event (ι : Type) where
  | boost (time : Nat)
  | demote (time : Nat) (job : ι)
  deriving DecidableEq

structure State (n : Nat) where
  entries : Fin n → Entry
  ready : List (Fin n)
  events : List (Event (Fin n))
  trace : List (Tick (Fin n))
  now : Nat
  nextBoost : Nat
  current : Option (Fin n)
  switches : Nat

/-- `(2, 4, 8)`. -/
def slices : Fin 3 → Int := ![2, 4, 8]

/-- `(4, 8, 0)`. -/
def allots : Fin 3 → Int := ![4, 8, 0]

namespace Entry

/-- The counters after one more tick. -/
def charge (e : Entry) : Entry :=
  { e with
    left := e.left - 1
    used := e.used + 1
    slice := e.slice - 1
    allot := if e.level ≠ 2 then e.allot - 1 else e.allot }

/-- The condition of the demotion, on a charged entry. -/
def Demotes (policy : Policy) (e : Entry) : Prop :=
  e.left ≠ 0 ∧ policy = .mlfq ∧ e.level < 2 ∧ e.allot = 0

instance (policy : Policy) (e : Entry) : Decidable (e.Demotes policy) :=
  inferInstanceAs (Decidable (_ ∧ _ ∧ _ ∧ _))

/-- `expired`, on a charged entry. -/
def Expired (policy : Policy) (e : Entry) : Prop := e.Demotes policy ∨ e.slice = 0

instance (policy : Policy) (e : Entry) : Decidable (e.Expired policy) :=
  inferInstanceAs (Decidable (_ ∨ _))

/-- A demotion, or a fresh slice when the old one has expired. -/
def renew (policy : Policy) (e : Entry) : Entry :=
  if e.Demotes policy then
    { e with level := e.level + 1, slice := slices (e.level + 1), allot := allots (e.level + 1) }
  else if e.slice = 0 then { e with slice := if policy = .mlfq then slices e.level else 2 }
  else e

/-- Waiting for its time: `s['state'] in ('new', 'blocked')`. -/
def Sleeps (e : Entry) : Prop := e.phase = .new ∨ e.phase = .blocked

instance (e : Entry) : Decidable e.Sleeps := inferInstanceAs (Decidable (_ ∨ _))

end Entry

namespace State

def setEntry (s : State n) (i : Fin n) (e : Entry) : State n :=
  { s with entries := Function.update s.entries i e }

/-- `any(s['done'] is None for s in states)`. -/
def Going (s : State n) : Prop := ∃ i, (s.entries i).done = none

instance (s : State n) : Decidable s.Going := inferInstanceAs (Decidable (∃ _, _))

/-- One turn of both scans for jobs whose time has come. -/
def wake (s : State n) (i : Fin n) : State n :=
  let e := s.entries i
  if e.Sleeps ∧ e.wake ≤ s.now then
    if e.left = 0 then
      s.setEntry i { e with first := some s.now, done := some s.now, phase := .done }
    else
      { s.setEntry i { e with phase := .ready, readyAt := s.now } with ready := s.ready ++ [i] }
  else s

def scan (s : State n) : State n := (List.finRange n).foldl wake s

def boost (s : State n) (policy : Policy) (period : Nat) : State n :=
  if policy = .mlfq ∧ s.nextBoost ≤ s.now then
    { s with
      entries i :=
        if (s.entries i).done = none then { s.entries i with level := 0, slice := 2, allot := 4 }
        else s.entries i
      events := s.events ++ [.boost s.now]
      nextBoost := (s.now / period + 1) * period }
  else s

/-- The job to run next, of those that are ready. -/
def choose (s : State n) (policy : Policy) : Option (Fin n) :=
  match policy with
  | .mlfq => least (fun i => (s.entries i).level) s.ready
  | .rr => s.ready.head?

def dispatch (s : State n) (policy : Policy) : State n :=
  match s.current, s.choose policy with
  | none, some i =>
    let e := s.entries i
    { s.setEntry i { e with
        maxWait := max e.maxWait (s.now - e.readyAt)
        phase := .running
        first := some (e.first.getD s.now) } with
      ready := s.ready.erase i
      current := some i
      switches := s.switches + 1 }
  | _, _ => s

/-- `now = min(future)`, if anybody is still waiting for its time. -/
def idle (s : State n) : State n :=
  match (((List.finRange n).filter fun i => (s.entries i).Sleeps).map fun i => (s.entries i).wake).min? with
  | some next => { s with now := next }
  | none => s

/-- The end of a turn: the current job goes back to the ready list if it still runs. -/
def giveUp (s : State n) (i : Fin n) : State n :=
  if (s.entries i).phase = .running then
    { s.setEntry i { s.entries i with phase := .ready, readyAt := s.now } with
      ready := s.ready ++ [i]
      current := none }
  else { s with current := none }

/-- `higher or boosted`. -/
def Preempts (s : State n) (policy : Policy) (i : Fin n) : Prop :=
  policy = .mlfq ∧ ((∃ k ∈ s.ready, (s.entries k).level < (s.entries i).level) ∨ s.nextBoost ≤ s.now)

instance (s : State n) (policy : Policy) (i : Fin n) : Decidable (s.Preempts policy i) :=
  inferInstanceAs (Decidable (_ ∧ (_ ∨ _)))

/-- Both assertions at the end of a turn. -/
def Checks (s : State n) : Prop := s.ready.Nodup ∧ ∀ k ∈ s.ready, (s.entries k).phase = .ready

instance (s : State n) : Decidable s.Checks := inferInstanceAs (Decidable (_ ∧ _))

end State

structure Metrics where
  response : Int
  turnaround : Int
  maxReadyWait : Nat
  deriving DecidableEq

/-- The value of `simulate`. -/
structure Report (n : Nat) where
  jobs : Fin n → Metrics
  switches : Nat
  events : List (Event String)
  trace : List (Tick String)
  deriving DecidableEq

namespace Workload
variable (w : Workload n) (policy : Policy) (period : Nat)

def start : State n where
  entries i :=
    { left := w.service i, level := 0, slice := 2, allot := 4, used := 0, wake := w.arrival i,
      phase := .new, first := none, done := none, readyAt := 0, maxWait := 0 }
  ready := []
  events := []
  trace := []
  now := 0
  nextBoost := period
  current := none
  switches := 0

/-- `voluntary`, on a charged entry. -/
def Voluntary (i : Fin n) (e : Entry) : Prop := w.burst i ≠ 0 ∧ e.used % w.burst i = 0

instance (i : Fin n) (e : Entry) : Decidable (w.Voluntary i e) := inferInstanceAs (Decidable (_ ∧ _))

/-- Completion or blocking at the end of a tick. -/
def leave (i : Fin n) (now : Nat) (e : Entry) : Entry :=
  if e.left = 0 then { e with done := some now, phase := .done }
  else if w.Voluntary i e ∧ w.wait i ≠ 0 then { e with phase := .blocked, wake := now + w.wait i }
  else e

/-- The current job has its tick: up to and including the second scan. -/
def spend (s : State n) (i : Fin n) : State n :=
  let e := (s.entries i).charge
  State.scan { s with
    entries := Function.update s.entries i (w.leave i (s.now + 1) (e.renew policy))
    events := s.events ++ if e.Demotes policy then [.demote (s.now + 1) i] else []
    trace := s.trace ++ [⟨s.now, i, (s.entries i).level⟩]
    now := s.now + 1 }

/-- A tick of the current job and what follows from it. -/
def tick (s : State n) (i : Fin n) : State n :=
  let e := (s.entries i).charge
  let t := w.spend policy s i
  if e.left = 0 ∨ w.Voluntary i e ∨ e.Expired policy ∨ t.Preempts policy i then t.giveUp i else t

/-- One pass through the body of the loop. -/
def pass (s : State n) : Except Failure (State n) :=
  let s := (s.scan.boost policy period).dispatch policy
  match s.current with
  | none => .ok s.idle
  | some i =>
    let t := w.tick policy s i
    if t.Checks then .ok t else .error .assertionError

/-- The loop takes `s` to `t`. -/
def Leads (s t : State n) : Prop := Ends State.Going (w.pass policy period) s (.ok t)

def label (x : Tick (Fin n)) : Tick String := ⟨x.time, w.name x.job, x.level⟩

def labelEvent : Event (Fin n) → Event String
  | .boost time => .boost time
  | .demote time job => .demote time (w.name job)

/-- What follows the loop. -/
def report (s : State n) : Except Failure (Report n) :=
  if s.trace.length ≠ ∑ i, w.service i then .error .assertionError
  else if ∃ i, (s.entries i).first = none ∨ (s.entries i).done = none then .error .typeError
  else .ok {
    jobs i := {
      response := ((s.entries i).first.getD 0 : Int) - w.arrival i
      turnaround := ((s.entries i).done.getD 0 : Int) - w.arrival i
      maxReadyWait := (s.entries i).maxWait }
    switches := s.switches
    events := s.events.map w.labelEvent
    trace := s.trace.map w.label }

/-- `simulate` returns this report. -/
def Returns (r : Report n) : Prop :=
  ∃ t, w.Leads policy period (w.start period) t ∧ w.report t = .ok r

end Workload

/-- `simulate` with a bound on the turns of its loop. -/
def simulate (fuel : Nat) (jobs : Fin n → Job) (policy : Policy) (period : Int) :
    Option (Except Failure (Report n)) :=
  if period ≤ 0 then some (.error (.valueError "invalid policy/boost period"))
  else
    match validate jobs with
    | .error failure => some (.error failure)
    | .ok w =>
      (loop State.Going (w.pass policy period.toNat) fuel (w.start period.toNat)).map
        fun ended => ended.bind w.report

end Neonos.Mlfq
