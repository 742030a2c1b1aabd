import TemporalPlanning.OrderedMap
import TemporalPlanning.Fault

namespace TemporalPlanning

structure GroundAction where
  action : Action
  args : List String
  arity : args.length = action.parameters.length
  deriving DecidableEq

namespace GroundAction

def ofArgs (action : Action) (args : List String) : Except Fault GroundAction :=
  if h : args.length = action.parameters.length then .ok ⟨action, args, h⟩
  else .error (.arity action.name action.parameters.length args.length)

def bindings (g : GroundAction) : OrderedMap String String :=
  .ofList ((g.action.parameters.map (·.name)).zip g.args)

def label (g : GroundAction) : String :=
  match g.args with
  | [] => g.action.name
  | args => g.action.name ++ "(" ++ ", ".intercalate args ++ ")"

end GroundAction

structure ActionInstance where
  number : Nat
  ground : GroundAction
  deriving DecidableEq

namespace ActionInstance

def action (i : ActionInstance) : Action := i.ground.action

def label (i : ActionInstance) : String := i.ground.label

end ActionInstance

structure TimedStep where
  start : Rat
  step : ActionInstance
  duration : Option Rat
  deriving DecidableEq

end TemporalPlanning
