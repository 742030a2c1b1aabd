import TemporalPlanning.Evaluation.Basic
import TemporalPlanning.Plan.Instance
import TemporalPlanning.Model.Problem

namespace TemporalPlanning

structure Achievement where
  defaults : OrderedMap String Value
  first : Valuation
  last : Valuation
  makespan : Rat
  steps : List TimedStep

namespace Achievement

def stepCost (a : Achievement) (costs : OrderedMap String Expr) (default : Option Expr)
    (s : TimedStep) : Except Fault Rat :=
  match (costs.get? s.step.action.name).or default with
  | none => .ok 0
  | some e => e.amount ⟨a.defaults, a.first, s.step.ground.bindings⟩

def gain (a : Achievement) (g : SoftGoal) : Except Fault Rat := do
  return if ← g.goal.holds ⟨a.defaults, a.last, .empty⟩ then g.gain else 0

def sum {α : Type} (f : α → Except Fault Rat) (xs : List α) : Except Fault Rat :=
  xs.foldlM (fun total x => do return total + (← f x)) 0

end Achievement

def Metric.value (a : Achievement) : Metric → Except Fault Rat
  | .makespan => .ok a.makespan
  | .planLength => .ok a.steps.length
  | .actionCosts costs default => Achievement.sum (a.stepCost costs default) a.steps
  | .minimize e => e.amount ⟨a.defaults, a.last, .empty⟩
  | .maximize e => e.amount ⟨a.defaults, a.last, .empty⟩
  | .oversubscription goals => Achievement.sum a.gain goals

def Problem.metricValues (p : Problem) (a : Achievement) : Except Fault (List (Metric × Rat)) :=
  p.metrics.mapM fun m => do return (m, ← m.value a)

end TemporalPlanning
