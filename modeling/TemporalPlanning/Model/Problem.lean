import TemporalPlanning.OrderedMap
import TemporalPlanning.Model.Action

namespace TemporalPlanning

structure FluentDeclaration where
  name : String
  type : String
  parameters : List String
  default : Option Value

structure ObjectDeclaration where
  name : String
  type : String

structure SoftGoal where
  goal : Expr
  gain : Rat

inductive Metric where
  | makespan
  | planLength
  | actionCosts (costs : OrderedMap String Expr) (default : Option Expr)
  | minimize (expr : Expr)
  | maximize (expr : Expr)
  | oversubscription (goals : List SoftGoal)

def Metric.name : Metric → String
  | .makespan => "makespan"
  | .planLength => "plan-length"
  | .actionCosts _ _ => "action-costs"
  | .minimize _ => "minimize-expression"
  | .maximize _ => "maximize-expression"
  | .oversubscription _ => "oversubscription"

inductive TrajectoryKind where
  | always
  | sometime
  | atMostOnce
  deriving DecidableEq

def TrajectoryKind.name : TrajectoryKind → String
  | .always => "always"
  | .sometime => "sometime"
  | .atMostOnce => "at-most-once"

structure TrajectoryConstraint where
  kind : TrajectoryKind
  condition : Expr
  deriving DecidableEq

structure Problem where
  name : String
  fluents : List FluentDeclaration
  objects : List ObjectDeclaration
  actions : List Action
  initial : OrderedMap String Value
  goals : List Expr
  timedGoals : List TimedCondition
  timedEffects : List TimedEffect
  trajectory : List TrajectoryConstraint
  metrics : List Metric

def Problem.defaults (p : Problem) : OrderedMap String Value :=
  p.fluents.foldl (fun m d => match d.default with
    | some v => m.put d.name v
    | none => m) .empty

end TemporalPlanning
