import TemporalPlanning.Execution.Timeline

namespace TemporalPlanning

structure PlanOffset where
  distance : Rat
  fromEnd : Bool
  deriving DecidableEq

namespace PlanOffset

def ofTiming (t : Timing) : Except Fault PlanOffset :=
  match t.anchor with
  | .planStart => .ok ⟨t.delay, false⟩
  | .planEnd => .ok ⟨t.delay, true⟩
  | anchor => .error (.actionTimingInGoal anchor)

def text (o : PlanOffset) : String :=
  (if o.fromEnd then "end" else "start") ++ "+" ++ Number.text o.distance

def position (o : PlanOffset) : Rat := if o.fromEnd then -o.distance else o.distance

def moved (o : PlanOffset) (epsilon : Rat) (later : Bool) : PlanOffset :=
  let distance := if later = !o.fromEnd then o.distance + epsilon else o.distance - epsilon
  { o with distance := Number.larger distance 0 }

end PlanOffset

def emptyBetween (lower upper : PlanOffset) (i : Interval) : Bool :=
  lower.fromEnd = upper.fromEnd &&
    (upper.position < lower.position ||
      (lower.position = upper.position && (i.leftOpen || i.rightOpen)))

def goalEvents (c : Clock) (plan : Activity) (n : Nat) (goal : TimedCondition) :
    Except Fault (List Event) := do
  let i := goal.interval
  let lower ← PlanOffset.ofTiming i.lower
  let upper ← PlanOffset.ofTiming i.upper
  if emptyBetween lower upper i then return []
  else
    let label := bracketed i.leftOpen i.rightOpen (lower.text ++ ".." ++ upper.text)
    let interval : IntervalCondition :=
      ⟨c.next + n, plan, goal.condition, lower.distance, upper.distance, i.leftOpen, i.rightOpen,
        [], [], none, label⟩
    let opening := if i.leftOpen then lower.moved c.epsilon true else lower
    let closing := if i.rightOpen then upper.moved c.epsilon false else upper
    return [
      .startCondition (c.place n plan opening.distance opening.fromEnd ("open" ++ label)) interval,
      .endCondition (c.place (n + 1) plan closing.distance closing.fromEnd ("close" ++ label))
        interval]

def goalsEvents (c : Clock) (plan : Activity) :
    Nat → List TimedCondition → Except Fault (List Event)
  | _, [] => .ok []
  | n, goal :: rest => do
      let es ← goalEvents c plan n goal
      return es ++ (← goalsEvents c plan (n + es.length) rest)

structure PlanEvents where
  start : Event
  finish : Event
  conditions : List Event

def PlanEvents.ofGoals (c : Clock) (plan : Activity) (goals : List TimedCondition) :
    Except Fault PlanEvents := do
  return {
    start := .startAction (c.place 0 plan 0 false "start") .empty 0 []
    finish := .endAction (c.place 1 plan 0 true "end") .empty
    conditions := ← goalsEvents c plan 2 goals }

end TemporalPlanning
