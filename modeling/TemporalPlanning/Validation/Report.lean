import TemporalPlanning.Model.Problem
import TemporalPlanning.Execution.Refusal

namespace TemporalPlanning

inductive Violation where
  | inapplicable (time : Rat) (refusal : Refusal)
  | cannotEnd (time : Rat) (refusal : Refusal)
  | simultaneousWrites (time : Rat) (first second : Event) (fluent : String)
  | trajectory (constraint : TrajectoryConstraint) (time : Option Rat)
  | unsatisfiedGoals (goals : List Expr)
  | inconsistent (witness : Option (String × String))

namespace Violation

def kind : Violation → String
  | .inapplicable _ _ => "inapplicable-event"
  | .cannotEnd _ _ => "inapplicable-event"
  | .simultaneousWrites _ _ _ _ => "conflicting-effects"
  | .trajectory _ _ => "trajectory-constraint"
  | .unsatisfiedGoals _ => "unsatisfied-goals"
  | .inconsistent _ => "temporal-inconsistency"

def trajectoryMessage (k : TrajectoryKind) (time : Option Rat) : String :=
  let when := (time.map Number.text).getD ""
  match k with
  | .always => s!"'always' constraint violated at {when}"
  | .sometime => "'sometime' constraint never held"
  | .atMostOnce => s!"'at-most-once' constraint became true a second time at {when}"

def message : Violation → String
  | .inapplicable t r => r.event.label ++ s!" at {Number.text t}: " ++ r.message
  | .cannotEnd t r => s!"Plan cannot end at {Number.text t}: " ++ r.message
  | .simultaneousWrites t a b key =>
      s!"{a.label} and {b.label} both write {key} at {Number.text t}"
  | .trajectory c t => trajectoryMessage c.kind t
  | .unsatisfiedGoals goals => s!"{goals.length} goal(s) not satisfied at the end of the plan"
  | .inconsistent none => "The STN plan is inconsistent"
  | .inconsistent (some (a, b)) => s!"The STN plan is inconsistent (between {a} and {b})"

end Violation

inductive NoteLevel where
  | info
  | error
  deriving DecidableEq

def NoteLevel.name : NoteLevel → String
  | .info => "info"
  | .error => "error"

structure Note where
  level : NoteLevel
  message : String
  deriving DecidableEq

structure Report where
  violation : Option Violation
  unsatisfied : List Expr
  metrics : List (Metric × Rat)
  notes : List Note
  trace : List (Rat × String)

namespace Report

def isValid (r : Report) : Bool := r.violation.isNone

def status (r : Report) : String := if r.isValid then "VALID" else "INVALID"

def addNote (r : Report) (level : NoteLevel) (message : String) : Report :=
  { r with notes := r.notes ++ [⟨level, message⟩] }

end Report

end TemporalPlanning
