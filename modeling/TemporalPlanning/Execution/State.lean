import TemporalPlanning.Network
import TemporalPlanning.Evaluation.Valuation
import TemporalPlanning.Execution.Event

namespace TemporalPlanning

structure Applied where
  event : Event
  reads : List String
  writes : List String

structure Running where
  activity : Activity
  pending : List Event

structure State where
  valuation : Valuation
  network : Network EventRef
  openConditions : List IntervalCondition
  agenda : OrderedMap Nat Running
  ended : List Activity
  last : Applied
  /-- All events before the last one, the latest first. -/
  past : List Applied

namespace State

def depth (s : State) : Nat := s.past.length

def history (s : State) : List Applied := s.last :: s.past

def isRunning (s : State) (a : Activity) : Bool :=
  (s.agenda.get? a.id).any fun r => r.activity.origin = a.origin

def hasEnded (s : State) (a : Activity) : Bool := s.ended.any (·.id = a.id)

def pending? (s : State) (a : Activity) : Option (List Event) :=
  (s.agenda.get? a.id).map (·.pending)

def isOpen (s : State) (i : IntervalCondition) : Bool := s.openConditions.any (·.id = i.id)

end State

end TemporalPlanning
