import TemporalPlanning.Model.Expr

namespace TemporalPlanning

inductive Anchor where
  | start
  | finish
  | planStart
  | planEnd
  deriving DecidableEq

def Anchor.name : Anchor → String
  | .start => "start"
  | .finish => "end"
  | .planStart => "global-start"
  | .planEnd => "global-end"

/-- A distance from an anchor. It counts backwards from `finish` and `planEnd`. -/
structure Timing where
  anchor : Anchor
  delay : Rat
  deriving DecidableEq

def Timing.text (t : Timing) : String := t.anchor.name ++ "+" ++ Number.text t.delay

structure Interval where
  lower : Timing
  upper : Timing
  leftOpen : Bool
  rightOpen : Bool
  deriving DecidableEq

namespace Interval

def closed (lower upper : Timing) : Interval := ⟨lower, upper, false, false⟩

def opened (lower upper : Timing) : Interval := ⟨lower, upper, true, true⟩

def leftOpened (lower upper : Timing) : Interval := ⟨lower, upper, true, false⟩

def rightOpened (lower upper : Timing) : Interval := ⟨lower, upper, false, true⟩

def point (t : Timing) : Interval := closed t t

end Interval

def bracketed (leftOpen rightOpen : Bool) (inner : String) : String :=
  (if leftOpen then "(" else "[") ++ inner ++ (if rightOpen then ")" else "]")

structure DurationBounds where
  lower : Expr
  upper : Expr
  lowerOpen : Bool
  upperOpen : Bool
  deriving DecidableEq

end TemporalPlanning
