import TemporalPlanning.Execution.Event
import TemporalPlanning.Number.Literal

namespace TemporalPlanning

inductive RefusalKind where
  | outOfOrder
  | unsatisfiedCondition
  | durationOutOfBounds
  | incompatibleOpenCondition
  | pendingConditions
  | conflictingEffects
  | openConditionViolated
  | temporalInconsistency
  deriving DecidableEq

def RefusalKind.name : RefusalKind → String
  | .outOfOrder => "out-of-order"
  | .unsatisfiedCondition => "unsatisfied-condition"
  | .durationOutOfBounds => "duration-out-of-bounds"
  | .incompatibleOpenCondition => "incompatible-open-condition"
  | .pendingConditions => "pending-conditions"
  | .conflictingEffects => "conflicting-effects"
  | .openConditionViolated => "open-condition-violated"
  | .temporalInconsistency => "temporal-inconsistency"

inductive Cause where
  | alreadyRunning
  | expectsOther (next : Option Event)
  | alreadyApplied
  | notOpened (interval : IntervalCondition)
  | planStillRuns (activities : List Activity)
  | goalsUnchecked (events : List Event)
  | stillOpen (intervals : List IntervalCondition)
  | unsatisfied (condition : Expr)
  | durationOutside (duration lower upper : Rat) (lowerOpen upperOpen : Bool)
  | contradicts (interval clash : IntervalCondition)
  | conflicting (fluents : List String)
  | violates (interval : IntervalCondition)
  | inconsistent (witness : Option (EventRef × EventRef))

structure Refusal where
  event : Event
  cause : Cause

namespace Refusal

def listed (labels : List String) : String := ", ".intercalate labels

def kind (r : Refusal) : RefusalKind :=
  match r.cause with
  | .alreadyRunning | .expectsOther _ | .alreadyApplied | .notOpened _ | .planStillRuns _ =>
      .outOfOrder
  | .goalsUnchecked _ | .stillOpen _ => .pendingConditions
  | .unsatisfied _ => .unsatisfiedCondition
  | .durationOutside _ _ _ _ _ => .durationOutOfBounds
  | .contradicts _ _ => .incompatibleOpenCondition
  | .conflicting _ => .conflictingEffects
  | .violates _ => .openConditionViolated
  | .inconsistent _ => .temporalInconsistency

def message (r : Refusal) : String :=
  let event := r.event.label
  let activity := r.event.activity.label
  match r.cause with
  | .alreadyRunning => s!"'{activity}' is already running"
  | .expectsOther next =>
      s!"'{activity}' expects " ++ (next.map Event.label).getD "nothing" ++ " next"
  | .alreadyApplied => s!"{event} was already applied"
  | .notOpened i => s!"{i.label} has not been opened"
  | .planStillRuns as =>
      "Cannot close the plan while " ++ listed (as.map Activity.label) ++ " are running"
  | .goalsUnchecked es => "Timed goals " ++ listed (es.map Event.label) ++ " were not checked"
  | .stillOpen is =>
      s!"'{activity}' still has open conditions " ++ listed (is.map IntervalCondition.label)
  | .unsatisfied _ => s!"A condition of {event} does not hold"
  | .durationOutside d lower upper lowerOpen upperOpen =>
      s!"Duration {Number.text d} of '{activity}' is outside " ++
        bracketed lowerOpen upperOpen (Number.text lower ++ ", " ++ Number.text upper)
  | .contradicts i clash =>
      s!"{i.label} of '{activity}' contradicts open condition {clash.label} of " ++
        s!"'{clash.activity.label}'"
  | .conflicting keys => s!"{event} writes " ++ listed keys ++ " more than once"
  | .violates i =>
      s!"Open condition {i.label} of '{i.activity.label}' is violated after {event}"
  | .inconsistent none => s!"Timing of {event} is inconsistent"
  | .inconsistent (some (a, b)) =>
      s!"Timing of {event} is inconsistent (between {a.label} and {b.label})"

def condition? (r : Refusal) : Option Expr :=
  match r.cause with
  | .unsatisfied c => some c
  | .contradicts _ clash => some clash.condition
  | .violates i => some i.condition
  | _ => none

def fluents? (r : Refusal) : Option (List String) :=
  match r.cause with
  | .conflicting keys => some keys
  | _ => none

def witness? (r : Refusal) : Option (EventRef × EventRef) :=
  match r.cause with
  | .inconsistent w => w
  | _ => none

def insisted (r : Refusal) : String := s!"Event {r.event.label} is not applicable: {r.message}"

end Refusal

end TemporalPlanning
