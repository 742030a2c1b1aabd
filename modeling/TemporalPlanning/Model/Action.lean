import TemporalPlanning.Model.Timing

namespace TemporalPlanning

structure Parameter where
  name : String
  type : String
  deriving DecidableEq

inductive EffectKind where
  | assign
  | increase
  | decrease
  deriving DecidableEq

def EffectKind.name : EffectKind → String
  | .assign => "assign"
  | .increase => "increase"
  | .decrease => "decrease"

structure Effect where
  kind : EffectKind
  target : FluentTerm
  value : Expr
  condition : Option Expr
  deriving DecidableEq

structure TimedCondition where
  interval : Interval
  condition : Expr
  deriving DecidableEq

structure TimedEffect where
  timing : Timing
  effect : Effect
  deriving DecidableEq

inductive Direction where
  | increase
  | decrease
  deriving DecidableEq

def Direction.name : Direction → String
  | .increase => "increase"
  | .decrease => "decrease"

def Direction.apply : Direction → Rat → Rat
  | .increase, q => q
  | .decrease, q => -q

/-- A number that changes by `rate` per unit of time; the change is made as the interval closes. -/
structure ContinuousEffect where
  direction : Direction
  interval : Interval
  target : FluentTerm
  rate : Expr
  deriving DecidableEq

structure SimulatedEffect where
  timing : Timing
  targets : List FluentTerm
  deriving DecidableEq

structure InstantaneousAction where
  name : String
  parameters : List Parameter
  preconditions : List Expr
  effects : List Effect
  simulated : Option SimulatedEffect
  deriving DecidableEq

structure DurativeAction where
  name : String
  parameters : List Parameter
  duration : DurationBounds
  conditions : List TimedCondition
  effects : List TimedEffect
  continuousEffects : List ContinuousEffect
  simulatedEffects : List SimulatedEffect
  deriving DecidableEq

inductive Action where
  | instantaneous (action : InstantaneousAction)
  | durative (action : DurativeAction)
  deriving DecidableEq

namespace Action

def name : Action → String
  | .instantaneous a => a.name
  | .durative a => a.name

def parameters : Action → List Parameter
  | .instantaneous a => a.parameters
  | .durative a => a.parameters

def isDurative : Action → Bool
  | .instantaneous _ => false
  | .durative _ => true

end Action

end TemporalPlanning
