import TemporalPlanning.Execution.Simulator
import TemporalPlanning.Validation.Report

namespace TemporalPlanning

/-- Where an event comes from, which decides its turn among events of one time and kind. -/
inductive Turn where
  | timedEffect
  | step (place : Nat)
  | goal
  deriving DecidableEq

namespace Turn

def isGoal : Turn → Bool
  | .goal => true
  | _ => false

def rank : Turn → Nat
  | .timedEffect => 0
  | .step n => n + 1
  | .goal => 0

end Turn

structure Scheduled where
  event : Event
  time : Rat
  turn : Turn

namespace Scheduled

def notAfter (a b : Scheduled) : Bool :=
  if a.time ≠ b.time then a.time < b.time
  else if a.turn.isGoal ≠ b.turn.isGoal then b.turn.isGoal
  else if a.event.kind.rank ≠ b.event.kind.rank then a.event.kind.rank < b.event.kind.rank
  else if a.turn.rank ≠ b.turn.rank then a.turn.rank < b.turn.rank
  else a.event.id ≤ b.event.id

def sort (es : List Scheduled) : List Scheduled := es.mergeSort notAfter

def instants (es : List Scheduled) : List (List Scheduled) := es.splitBy fun a b => a.time = b.time

end Scheduled

def stepEvents : Simulator → Nat → List TimedStep → Simulator × Except Fault (List Scheduled)
  | sim, _, [] => (sim, .ok [])
  | sim, n, s :: rest =>
      match sim.eventsOf s.step.ground s.duration with
      | (sim, .error f) => (sim, .error f)
      | (sim, .ok es) =>
          match stepEvents sim (n + 1) rest with
          | (sim, .error f) => (sim, .error f)
          | (sim, .ok others) =>
              (sim, .ok (es.map (fun e => ⟨e, s.start + e.offset, .step n⟩) ++ others))

structure Schedule where
  sim : Simulator
  events : List Scheduled
  makespan : Rat

namespace Schedule

def ofSteps (sim : Simulator) (steps : List TimedStep) : Except Fault Schedule := do
  let (sim, ofSteps) := stepEvents sim 0 steps
  let ofSteps ← ofSteps
  let (sim, timed) := sim.timedActivities
  let ofEffects := (← timed).flatMap fun t =>
    t.events.map fun e => (⟨e, t.time + e.offset, .timedEffect⟩ : Scheduled)
  let goals := sim.goalEvents
  let times := (ofSteps ++ ofEffects).map (·.time) ++
    (goals.filter fun e => !e.fromEnd).map Event.offset
  let makespan := times.foldl Number.larger 0
  let ofGoals := goals.map fun e =>
    (⟨e, if e.fromEnd then makespan - e.offset else e.offset, .goal⟩ : Scheduled)
  return ⟨sim, Scheduled.sort (ofSteps ++ ofEffects ++ ofGoals), makespan⟩

end Schedule

def effectTargets (s : Situation) : List Effect → Except Fault (List String)
  | [] => .ok []
  | e :: es => do
      let fires ← match e.condition with
        | some c => c.holds s
        | none => pure true
      let keys ← if fires then (do return [← e.target.ground s]) else pure []
      return keys ++ (← effectTargets s es)

def writtenBy (sim : Simulator) (v : Valuation) (e : Event) : Except Fault (List String) := do
  let s := sim.situation v e.activity.bindings
  let discrete ← effectTargets s e.effects
  let simulated ← ((e.simulated.map (·.targets)).getD []).mapM (FluentTerm.ground s)
  let continuous ← e.continuousEffects.mapM fun c => c.target.ground s
  return discrete ++ simulated ++ continuous

def noteWriter (x : Scheduled) :
    List String → OrderedMap String Scheduled → OrderedMap String Scheduled × Option Violation
  | [], writers => (writers, none)
  | key :: keys, writers =>
      match writers.get? key with
      | some other =>
          if other.event.activity.id ≠ x.event.activity.id then
            (writers, some (.simultaneousWrites x.time other.event x.event key))
          else noteWriter x keys (writers.put key x)
      | none => noteWriter x keys (writers.put key x)

def simultaneousWrites (sim : Simulator) (v : Valuation) :
    List Scheduled → OrderedMap String Scheduled → Except Fault (Option Violation)
  | [], _ => .ok none
  | x :: xs, writers => do
      let keys ← writtenBy sim v x.event
      match noteWriter x keys writers with
      | (_, some violation) => return some violation
      | (writers, none) => simultaneousWrites sim v xs writers

end TemporalPlanning
