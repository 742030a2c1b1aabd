import TemporalPlanning.Execution.Transition
import TemporalPlanning.Plan.Partial
import TemporalPlanning.Stn.Schedule
import TemporalPlanning.Validation.Metrics
import TemporalPlanning.Validation.Options
import TemporalPlanning.Validation.Schedule
import TemporalPlanning.Validation.Trajectory

namespace TemporalPlanning

inductive Plan where
  | timed (steps : List TimedStep)
  | sequence (steps : List ActionInstance)
  | ordered (plan : PartialPlan ActionInstance)
  | stn (plan : StnPlan ActionInstance)

def Plan.kind : Plan → String
  | .timed _ => "time-triggered"
  | .sequence _ => "sequential"
  | .ordered _ => "partial-order"
  | .stn _ => "stn"

structure Validator where
  epsilon : Rat
  limit : Option Nat
  provider : Option EffectProvider
  unwritten : Bool

structure Progress where
  state : State
  monitor : Monitor
  trace : List (Rat × String)

namespace Validator

def ofOptions (o : Options) (s : Settings) : Validator :=
  ⟨o.epsilon.getD s.epsilon, o.limit.or s.limit, o.provider, o.logger⟩

def component : String := "validator"

def appliedRecord (x : Scheduled) : Record :=
  ⟨component, .debug, [("time", Number.text x.time), ("event", x.event.label)], "event applied"⟩

def visit (sim : Simulator) (time : Rat) (p : Progress) :
    Except Fault (Progress × Option Violation) := do
  let here := sim.situation p.state.valuation .empty
  let (monitor, violation) ← p.monitor.visit (Expr.holds here) time
  return ({ p with monitor }, violation)

def applyEvents (sim : Simulator) :
    List Scheduled → Progress → Logged (Progress × Option Violation)
  | [], p => return (p, none)
  | x :: xs, p => do
      match ← sim.tryApply x.event p.state (some x.time) with
      | .error r => return (p, some (.inapplicable x.time r))
      | .ok state => do
          Logged.write (appliedRecord x)
          let p := { p with state, trace := p.trace ++ [(x.time, x.event.label)] }
          match ← Logged.ofExcept (visit sim x.time p) with
          | (p, some violation) => return (p, some violation)
          | (p, none) => applyEvents sim xs p

def applyInstants (sim : Simulator) :
    List (List Scheduled) → Progress → Logged (Progress × Option Violation)
  | [], p => return (p, none)
  | xs :: rest, p => do
      match ← Logged.ofExcept (simultaneousWrites sim p.state.valuation xs .empty) with
      | some violation => return (p, some violation)
      | none => do
          match ← applyEvents sim xs p with
          | (p, some violation) => return (p, some violation)
          | (p, none) => applyInstants sim rest p

def applyEnd (sim : Simulator) (makespan : Rat) (p : Progress) :
    Logged (Progress × Option Violation) := do
  match p.monitor.finish with
  | some violation => return (p, some violation)
  | none => do
      match ← sim.tryApply sim.planEnd p.state (some makespan) with
      | .error r => return (p, some (.cannotEnd makespan r))
      | .ok state =>
          return ({ p with state, trace := p.trace ++ [(makespan, sim.planEnd.label)] }, none)

def execute (sim : Simulator) (s : Schedule) : Logged (Progress × Option Violation) := do
  let start : Progress := ⟨sim.initialState, .start sim.problem.trajectory, []⟩
  match ← Logged.ofExcept (visit sim 0 start) with
  | (p, some violation) => return (p, some violation)
  | (p, none) => do
      match ← applyInstants sim (Scheduled.instants s.events) p with
      | (p, some violation) => return (p, some violation)
      | (p, none) => applyEnd sim s.makespan p

def report (sim : Simulator) (s : Schedule) (steps : List TimedStep) (p : Progress)
    (violation : Option Violation) : Except Fault Report := do
  let goals ← sim.unsatisfiedGoals p.state
  let violation := violation.or (if goals.isEmpty then none else some (.unsatisfiedGoals goals))
  match violation with
  | some v => return ⟨some v, goals, [], [⟨.error, v.message⟩], p.trace⟩
  | none =>
      let metrics ← sim.problem.metricValues
        ⟨sim.defaults, .ofMap sim.problem.initial, p.state.valuation, s.makespan, steps⟩
      let note := s!"Plan is valid with makespan {Number.text s.makespan}"
      return ⟨none, goals, metrics, [⟨.info, note⟩], p.trace⟩

def validateTimed (v : Validator) (problem : Problem) (steps : List TimedStep) :
    Logged Report := do
  let sim ← Logged.ofExcept (Simulator.new 0 problem v.epsilon v.provider component)
  let s ← Logged.ofExcept (Schedule.ofSteps sim steps)
  let (p, violation) ← execute s.sim s
  Logged.ofExcept (report s.sim s steps p violation)

def spaced (steps : List ActionInstance) : List TimedStep :=
  steps.zipIdx.map fun s => ⟨(s.2 : Rat), s.1, none⟩

def validateSequence (v : Validator) (problem : Problem) (steps : List ActionInstance) :
    Logged Report :=
  match steps.find? fun s => s.action.isDurative with
  | some s => Logged.ofExcept (.error (.durativeInSequence s.label))
  | none => v.validateTimed problem (spaced steps)

structure Checked where
  count : Nat
  first : Option Report
  failed : Option Report

def checkLinearization (v : Validator) (problem : Problem) (steps : List ActionInstance)
    (c : Checked) : Logged (ForInStep Checked) :=
  if v.limit.any (· ≤ c.count) then return .done c
  else do
    let r ← v.validateSequence problem steps
    let c := { c with count := c.count + 1 }
    if r.isValid then return .yield { c with first := c.first.or (some r) }
    else
      let order := ", ".intercalate (steps.map (·.label))
      let r := r.addNote .error s!"Linearization #{c.count} is invalid: {order}"
      return .done { c with failed := some r }

def validateOrdered (v : Validator) (problem : Problem) (plan : PartialPlan ActionInstance) :
    Logged Report := do
  let c ← match ← plan.walk (v.checkLinearization problem) ⟨0, none, none⟩ with
    | .done c => pure c
    | .yield c => pure c
  match c.failed with
  | some r => return r
  | none => do
      let r ← match c.first with
        | some r => pure r
        | none => v.validateSequence problem plan.toSequence
      return r.addNote .info s!"Checked {c.count} linearization(s)"

def validateStn (v : Validator) (problem : Problem) (plan : StnPlan ActionInstance) :
    Logged Report := do
  let net := plan.toNetwork
  if net.check then
    let steps ← Logged.ofExcept plan.schedule
    v.validateTimed problem steps
  else
    let label (t : Timepoint ActionInstance) : String := t.label (·.label)
    let witness := net.witness.map fun w => (label w.1, label w.2)
    return ⟨some (.inconsistent witness), [], [],
      [⟨.error, "Temporal constraints of the plan have no solution"⟩], []⟩

def dispatch (v : Validator) (problem : Problem) : Plan → Logged Report
  | .timed steps => v.validateTimed problem steps
  | .sequence steps => v.validateSequence problem steps
  | .ordered plan => v.validateOrdered problem plan
  | .stn plan => v.validateStn problem plan

def reportRecord (problem : Problem) (plan : Plan) (r : Report) : Record :=
  let violation := match r.violation with
    | some v => [("violation", v.kind)]
    | none => []
  ⟨component, .info, [("problem", problem.name), ("plan", plan.kind), ("status", r.status)] ++
    violation, "plan validated"⟩

def recorded (v : Validator) (problem : Problem) (plan : Plan) : Logged Report := do
  let r ← v.dispatch problem plan
  Logged.write (reportRecord problem plan r)
  return r

def validate (v : Validator) (problem : Problem) (plan : Plan) : Logged Report :=
  if v.unwritten then (v.recorded problem plan).unwritten else v.recorded problem plan

end Validator

end TemporalPlanning
