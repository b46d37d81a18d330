import Metalogos.Lib.Dict
import Metalogos.Lib.SingleFlight

/-!
# The distillation hub

The state that all calls of a pattern share and the thread that trains (`src/distill_hub.rs`). A call reads the mode,
the number of examples and the last attempt in one section under the mutex and decides there whether to train; the
in-flight mark, the copy of the examples and the stamp of the attempt are sections of their own, and the job goes
to the trainer over a channel. One step is one section, or one operation of the channel.

The mutex is never poisoned here: a section in which a thread died would turn the calls after it away, or let them
go on as if nothing had been.
-/
namespace Metalogos.Distill

open Metalogos.Lib

inductive DistillMode
  | teaching | distilled
  deriving DecidableEq, Repr

structure DistillRuntimeState where
  mode : DistillMode
  examples : List (String × String)
  lastTrainAttempt : Nat
  deriving DecidableEq, Repr

def DistillRuntimeState.fresh : DistillRuntimeState := ⟨.teaching, [], 0⟩

structure DistillSpec where
  reflexName : String
  distillAfter : Nat
  deriving DecidableEq, Repr

abbrev States := Dict String DistillRuntimeState

/-- The state of a pattern, the one it would be given if it has none. -/
def entry (states : States) (pattern : String) : DistillRuntimeState := (states.get pattern).getD .fresh

def orInsert (states : States) (pattern : String) : States := states.set pattern (entry states pattern)

/-- mirrors src/distill_hub.rs:959-968 -/
def recordExample (states : States) (pattern input output : String) : States :=
  let state := entry states pattern
  states.set pattern { state with examples := state.examples ++ [(input, output)] }

/-- ADR-0115 asks for ten examples before the holdout split. -/
def trainingThreshold (spec : DistillSpec) : Nat := Nat.max spec.distillAfter 10

/-- Five more examples than at the last attempt, or no attempt yet. -/
def dueAgain (count lastAttempt : Nat) : Bool := lastAttempt == 0 || decide (count - lastAttempt ≥ 5)

/-- Whether what the first section read says to train.
mirrors src/distill_hub.rs:643-645, 748-750 -/
def shouldTrain (spec : DistillSpec) (state : DistillRuntimeState) : Bool :=
  let count := state.examples.length
  match state.mode with
  | .teaching => decide (count ≥ trainingThreshold spec) && dueAgain count state.lastTrainAttempt
  | .distilled => decide (count - state.lastTrainAttempt ≥ trainingThreshold spec)

structure TrainJob where
  patternName : String
  spec : DistillSpec
  examples : List (String × String)
  deriving DecidableEq, Repr

/-- What the training of a job came to; an error has neither. -/
structure DistillTrainOutcome where
  switched : Bool
  gateRejected : Bool
  deriving DecidableEq, Repr

/-- What a call that decided to train has done so far. -/
inductive Phase
  | decided
  | marked
  | copied (examples : List (String × String))
  | stamped (examples : List (String × String))
  | dropped
  deriving DecidableEq, Repr

/-- A call that decided to train, with the mode and the number of examples it read. -/
structure DistillCall where
  pattern : String
  spec : DistillSpec
  mode : DistillMode
  count : Nat
  phase : Phase
  deriving DecidableEq, Repr

/-- The pattern whose in-flight mark the call has taken and not handed over. -/
def DistillCall.holding (c : DistillCall) : Option String := if c.phase = .decided then none else some c.pattern

/-- A job as it was sent: the number of examples it was triggered at, and whether its call read TEACHING or its
pattern was in TEACHING mode when it was sent. -/
structure Scheduled where
  pattern : String
  count : Nat
  teaching : Bool
  deriving DecidableEq, Repr

/-- `scheduled` is no part of the hub: the jobs sent so far, in their order. -/
structure Hub where
  states : States
  inFlight : List String
  calls : Nat → Option DistillCall
  queue : List TrainJob
  running : Option TrainJob
  trainerAlive : Bool
  scheduled : List Scheduled

inductive HubStep
  | read (call : Nat) (pattern : String) (spec : DistillSpec)
  | advance (call : Nat)
  | record (pattern input output : String)
  | receive
  | finish (outcome : DistillTrainOutcome)
  | trainerDies

/-- The verdict of a training in the state of its pattern.
mirrors src/distill_hub.rs:459-483 -/
def land (states : States) (pattern : String) (outcome : DistillTrainOutcome) : States :=
  if outcome.switched then states.modify pattern fun s => { s with mode := .distilled }
  else if outcome.gateRejected then
    states.modify pattern fun s => if s.mode = .distilled then { s with mode := .teaching } else s
  else states

namespace Hub

/-- A hub that is opened has the examples of its table.
mirrors src/distill_hub.rs:326-375 -/
def opened (rows : List (String × String × String)) : Hub where
  states := rows.foldl (fun states row => recordExample states row.1 row.2.1 row.2.2) .empty
  inFlight := []
  calls := fun _ => none
  queue := []
  running := none
  trainerAlive := true
  scheduled := []

def setCall (s : Hub) (call : Nat) (c : Option DistillCall) : Nat → Option DistillCall :=
  Function.update s.calls call c

/-- The first section; a call that does not train is over with it as far as the cadence goes.
mirrors src/distill_hub.rs:617-646, 735-750 -/
def read (s : Hub) (call : Nat) (pattern : String) (spec : DistillSpec) : Hub :=
  let state := entry s.states pattern
  { s with
    states := orInsert s.states pattern
    calls := if shouldTrain spec state then
        s.setCall call (some ⟨pattern, spec, state.mode, state.examples.length, .decided⟩)
      else s.calls }

/-- The next section of a call that decided to train.
mirrors src/distill_hub.rs:647-718, 751-814 -/
def advance (s : Hub) (call : Nat) (c : DistillCall) : Hub :=
  match c.phase with
  | .decided =>
    if c.pattern ∈ s.inFlight then { s with calls := s.setCall call none }
    else { s with
      inFlight := c.pattern :: s.inFlight
      calls := s.setCall call (some { c with phase := .marked }) }
  | .marked =>
    let examples := ((s.states.get c.pattern).map (·.examples)).getD []
    { s with calls := s.setCall call (some { c with phase := .copied examples }) }
  | .copied examples =>
    { s with
      states := s.states.modify c.pattern fun st => { st with lastTrainAttempt := c.count }
      calls := s.setCall call (some { c with phase := .stamped examples }) }
  | .stamped examples =>
    if s.trainerAlive then
      { s with
        queue := s.queue ++ [⟨c.pattern, c.spec, examples⟩]
        calls := s.setCall call none
        scheduled := s.scheduled ++ [⟨c.pattern, c.count,
          decide (c.mode = .teaching ∨ (entry s.states c.pattern).mode = .teaching)⟩] }
    else { s with calls := s.setCall call (some { c with phase := .dropped }) }
  | .dropped =>
    { s with
      inFlight := s.inFlight.filter (· ≠ c.pattern)
      calls := s.setCall call none }

/-- mirrors src/distill_hub.rs:401-485 -/
def finish (s : Hub) (outcome : DistillTrainOutcome) : Hub :=
  match s.running with
  | none => s
  | some job =>
    { s with
      states := land s.states job.patternName outcome
      inFlight := s.inFlight.filter (· ≠ job.patternName)
      running := none }

def step (s : Hub) : HubStep → Hub
  | .read call pattern spec => if s.calls call = none then s.read call pattern spec else s
  | .advance call => match s.calls call with
    | none => s
    | some c => s.advance call c
  | .record pattern input output => { s with states := recordExample s.states pattern input output }
  | .receive => match s.trainerAlive, s.running, s.queue with
    | true, none, job :: queue => { s with queue := queue, running := some job }
    | _, _, _ => s
  | .finish outcome => s.finish outcome
  | .trainerDies => { s with trainerAlive := false, queue := [], running := none }

def run (s : Hub) (steps : List HubStep) : Hub := steps.foldl step s

/-- The jobs queued or running. -/
def jobs (s : Hub) : List TrainJob := s.running.toList ++ s.queue

def lastAttempt (s : Hub) (pattern : String) : Nat := (entry s.states pattern).lastTrainAttempt

def exampleCount (s : Hub) (pattern : String) : Nat := (entry s.states pattern).examples.length

end Hub

end Metalogos.Distill
