import TemporalPlanning.Plan.Instance

namespace TemporalPlanning

structure Activity where
  origin : Nat
  id : Nat
  ground : Option GroundAction
  deriving DecidableEq

namespace Activity

def label (a : Activity) : String :=
  match a.ground with
  | some g => s!"{g.label}#{a.id}"
  | none => "plan"

def bindings (a : Activity) : OrderedMap String String :=
  match a.ground with
  | some g => g.bindings
  | none => .empty

end Activity

def Activity.plan (origin : Nat) : Activity := ⟨origin, 0, none⟩

/--
What has to hold over an interval of an activity, what changes over it, and what happens as it
closes. The offsets count from the start of the activity, before they are moved off open ends.
-/
structure IntervalCondition where
  id : Nat
  activity : Activity
  condition : Expr
  lower : Rat
  upper : Rat
  leftOpen : Bool
  rightOpen : Bool
  continuousEffects : List ContinuousEffect
  effects : List Effect
  simulated : Option SimulatedEffect
  label : String
  deriving DecidableEq

inductive EventKind where
  | startAction
  | startCondition
  | endCondition
  | endAction
  deriving DecidableEq

namespace EventKind

def rank : EventKind → Nat
  | .startAction => 0
  | .startCondition => 1
  | .endCondition => 2
  | .endAction => 3

def name : EventKind → String
  | .startAction => "start-action"
  | .startCondition => "start-condition"
  | .endCondition => "end-condition"
  | .endAction => "end-action"

end EventKind

/-- What every event has. The offset counts back from the end of the plan if `fromEnd` is set. -/
structure Placement where
  id : Nat
  activity : Activity
  offset : Rat
  fromEnd : Bool
  label : String
  deriving DecidableEq

structure ActionBody where
  conditions : List Expr
  effects : List Effect
  simulated : Option SimulatedEffect
  deriving DecidableEq

def ActionBody.empty : ActionBody := ⟨[], [], none⟩

inductive Event where
  /-- The committed events are all others of the activity, in the order of execution. -/
  | startAction (place : Placement) (body : ActionBody) (duration : Rat) (committed : List Event)
  | startCondition (place : Placement) (interval : IntervalCondition)
  | endCondition (place : Placement) (interval : IntervalCondition)
  | endAction (place : Placement) (body : ActionBody)

structure EventRef where
  origin : Nat
  id : Nat
  label : String
  deriving DecidableEq

namespace Event

def place : Event → Placement
  | .startAction p _ _ _ => p
  | .startCondition p _ => p
  | .endCondition p _ => p
  | .endAction p _ => p

def id (e : Event) : Nat := e.place.id

def activity (e : Event) : Activity := e.place.activity

def origin (e : Event) : Nat := e.activity.origin

def offset (e : Event) : Rat := e.place.offset

def fromEnd (e : Event) : Bool := e.place.fromEnd

def label (e : Event) : String := e.place.label

def ref (e : Event) : EventRef := ⟨e.origin, e.id, e.label⟩

def kind : Event → EventKind
  | .startAction _ _ _ _ => .startAction
  | .startCondition _ _ => .startCondition
  | .endCondition _ _ => .endCondition
  | .endAction _ _ => .endAction

def interval? : Event → Option IntervalCondition
  | .startCondition _ i => some i
  | .endCondition _ i => some i
  | _ => none

def committed : Event → List Event
  | .startAction _ _ _ es => es
  | _ => []

def effects : Event → List Effect
  | .startAction _ b _ _ => b.effects
  | .endAction _ b => b.effects
  | .endCondition _ i => i.effects
  | .startCondition _ _ => []

def simulated : Event → Option SimulatedEffect
  | .startAction _ b _ _ => b.simulated
  | .endAction _ b => b.simulated
  | .endCondition _ i => i.simulated
  | .startCondition _ _ => none

def continuousEffects : Event → List ContinuousEffect
  | .endCondition _ i => i.continuousEffects
  | _ => []

def compare (a b : Event) : Int :=
  let byOffset := if a.offset < b.offset then -1 else if b.offset < a.offset then 1 else 0
  if byOffset ≠ 0 then byOffset
  else if a.kind.rank ≠ b.kind.rank then (a.kind.rank : Int) - b.kind.rank
  else (a.id : Int) - b.id

def sort (es : List Event) : List Event := es.mergeSort fun a b => compare a b ≤ 0

end Event

end TemporalPlanning
