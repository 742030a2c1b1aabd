import TemporalPlanning.Model.Problem
import TemporalPlanning.Execution.Firing
import TemporalPlanning.Execution.PlanEvents
import TemporalPlanning.Execution.State

namespace TemporalPlanning

open Number (Numeral)

structure TimedActivity where
  time : Rat
  events : List Event

structure Simulator where
  /-- Separates the activities and events of this simulator from those of others. -/
  origin : Nat
  problem : Problem
  defaults : OrderedMap String Value
  epsilon : Rat
  provider : Option EffectProvider
  component : String
  planEvents : PlanEvents
  nextActivity : Nat
  nextEvent : Nat
  timed : Option (List TimedActivity)

namespace Simulator

def new (origin : Nat) (problem : Problem) (epsilon : Rat) (provider : Option EffectProvider)
    (component : String) : Except Fault Simulator := do
  let events ← PlanEvents.ofGoals ⟨epsilon, 0⟩ (.plan origin) problem.timedGoals
  return {
    origin, problem, epsilon, provider, component
    defaults := problem.defaults
    planEvents := events
    nextActivity := 1
    nextEvent := 2 + events.conditions.length
    timed := none }

def planStart (sim : Simulator) : Event := sim.planEvents.start

def planEnd (sim : Simulator) : Event := sim.planEvents.finish

def goalEvents (sim : Simulator) : List Event := sim.planEvents.conditions

def clock (sim : Simulator) : Clock := ⟨sim.epsilon, sim.nextEvent⟩

def situation (sim : Simulator) (v : Valuation) (bindings : OrderedMap String String) :
    Situation :=
  ⟨sim.defaults, v, bindings⟩

/-- A new activity. Its number is used up even if its events cannot be made. -/
def execute (sim : Simulator) (g : GroundAction) (duration : Option Rat) :
    Simulator × Except Fault (List Event) :=
  let counted := { sim with nextActivity := sim.nextActivity + 1 }
  match g.action.events sim.clock ⟨sim.origin, sim.nextActivity, some g⟩ duration with
  | .ok es => ({ counted with nextEvent := sim.nextEvent + es.length }, .ok es)
  | .error f => (counted, .error f)

def eventsOf (sim : Simulator) (g : GroundAction) (duration : Option Rat) :
    Simulator × Except Fault (List Event) :=
  if g.action ∈ sim.problem.actions then sim.execute g duration
  else (sim, .error (.unknownAction g.action.name sim.problem.name))

def eventsOfAction (sim : Simulator) (a : Action) (args : List String)
    (duration : Option Numeral) : Simulator × Except Fault (List Event) :=
  let request : Except Fault (GroundAction × Option Rat) := do
    let g ← GroundAction.ofArgs a args
    match duration with
    | none => return (g, none)
    | some n => return (g, some (← n.toRat))
  match request with
  | .ok (g, d) => sim.eventsOf g d
  | .error f => (sim, .error f)

def eventsNamed (sim : Simulator) (name : String) (args : List String)
    (duration : Option Numeral) : Simulator × Except Fault (List Event) :=
  match sim.problem.actions.find? (·.name = name) with
  | some a => sim.eventsOfAction a args duration
  | none => (sim, .error (.unknownAction name sim.problem.name))

def effectsByTime : List TimedEffect → OrderedMap Rat (List Effect) →
    Except Fault (OrderedMap Rat (List Effect))
  | [], m => .ok m
  | e :: es, m =>
      match e.timing.anchor with
      | .planStart =>
          let t := e.timing.delay
          effectsByTime es (m.put t ((m.get? t).getD [] ++ [e.effect]))
      | anchor => .error (.unanchoredTimedEffect anchor)

def timedGround (time : Rat) (effects : List Effect) : GroundAction where
  action := .instantaneous ⟨"timed-effect@" ++ Number.text time, [], [], effects, none⟩
  args := []
  arity := rfl

def executeTimed (sim : Simulator) : List (Rat × List Effect) →
    Simulator × Except Fault (List TimedActivity)
  | [] => (sim, .ok [])
  | (time, effects) :: rest =>
      match sim.execute (timedGround time effects) none with
      | (sim, .error f) => (sim, .error f)
      | (sim, .ok es) =>
          match sim.executeTimed rest with
          | (sim, .error f) => (sim, .error f)
          | (sim, .ok others) => (sim, .ok (⟨time, es⟩ :: others))

def timedActivities (sim : Simulator) : Simulator × Except Fault (List TimedActivity) :=
  match sim.timed with
  | some ts => (sim, .ok ts)
  | none =>
      match effectsByTime sim.problem.timedEffects .empty with
      | .error f => (sim, .error f)
      | .ok m =>
          match sim.executeTimed (m.entries.mergeSort fun a b => a.1 ≤ b.1) with
          | (sim, .error f) => (sim, .error f)
          | (sim, .ok ts) => ({ sim with timed := some ts }, .ok ts)

def placeGoalEvent (sim : Simulator) (net : Network EventRef) (e : Event) : Network EventRef :=
  if e.fromEnd then net.add e.ref sim.planEnd.ref (some e.offset) (some e.offset)
  else net.add sim.planStart.ref e.ref (some e.offset) (some e.offset)

def orderGoalEvent (sim : Simulator) (net : Network EventRef) (e : Event) : Network EventRef :=
  match e with
  | .endCondition _ i =>
      match sim.goalEvents.find? fun o => o.id = i.id with
      | some opening => net.add opening.ref e.ref (some 0) none
      | none => net
  | _ => net

def initialNetwork (sim : Simulator) : Network EventRef :=
  let net := Network.empty.addNode sim.planStart.ref
  let net := net.add sim.planStart.ref sim.planEnd.ref (some 0) none
  let net := sim.goalEvents.foldl sim.placeGoalEvent net
  sim.goalEvents.foldl sim.orderGoalEvent net

def initialState (sim : Simulator) : State where
  valuation := .ofMap sim.problem.initial
  network := sim.initialNetwork
  openConditions := []
  agenda := OrderedMap.empty.put 0 ⟨.plan sim.origin, sim.goalEvents ++ [sim.planEnd]⟩
  ended := []
  last := ⟨sim.planStart, [], []⟩
  past := []

def unsatisfiedIn (s : Situation) : List Expr → Except Fault (List Expr)
  | [] => .ok []
  | g :: gs => do
      let holds ← g.holds s
      let rest ← unsatisfiedIn s gs
      return if holds then rest else g :: rest

def unsatisfiedGoals (sim : Simulator) (s : State) : Except Fault (List Expr) :=
  unsatisfiedIn (sim.situation s.valuation .empty) sim.problem.goals

end Simulator

end TemporalPlanning
