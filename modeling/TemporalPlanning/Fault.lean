import TemporalPlanning.Model.Action

namespace TemporalPlanning

structure Issue where
  path : String
  message : String
  deriving DecidableEq

inductive Fault where
  | invalidLiteral (text : String)
  | notFinite (value : String)
  | notAnInteger
  | exponentOutOfRange (text : String)
  | zeroDenominator
  | divisionByZero (dividend : Rat)
  | invalidConfiguration (issues : List Issue)
  | invalidOptions (issues : List Issue)
  | selfOrdered (step : String)
  | cyclicOrdering
  | durativeInSequence (step : String)
  | unboundParameter (name : String)
  | notBoolean (kind got : String)
  | notNumber (kind got : String)
  | notObject (fluent got : String)
  | undefinedFluent (key : String)
  | changeByNonNumber (kind : EffectKind) (key got : String)
  | wrongValueCount (activity : String) (given : Option Nat) (wanted : Nat)
  | unknownAction (action problem : String)
  | arity (action : String) (expected actual : Nat)
  | durationOfInstantaneous (action : String) (duration : Rat)
  | missingDuration (action : String)
  | negativeDuration (action : String) (duration : Rat)
  | stepWithoutDuration (step : String)
  | planTiming (action : String) (anchor : Anchor)
  | outsideDuration (action : String) (timing : Timing) (duration : Rat)
  | secondSimulatedEffect (action : String) (timing : Timing)
  | actionTimingInGoal (anchor : Anchor)
  | unanchoredTimedEffect (anchor : Anchor)
  | foreignEvent (event : String)
  | activityNotStarted (event activity : String)
  | activityEnded (event activity : String)
  | missingProvider (activity : String)
  | closingInconsistent
  | schedulingInconsistent
  | unusableLogger
  deriving DecidableEq

inductive FaultKind where
  | range
  | type
  | validation
  | evaluation
  | undefinedFluent
  | unknownAction
  | arity
  | invalidDuration
  | unsupportedTiming
  | foreignEvent
  | activityNotStarted
  | activityEnded
  | missingCapability
  | inconsistentPlan
  deriving DecidableEq

inductive Detail where
  | text (s : String)
  | count (n : Nat)
  | issues (list : List Issue)
  deriving DecidableEq

namespace FaultKind

def name : FaultKind → String
  | .range => "RangeError"
  | .type => "TypeError"
  | .validation => "ValidationError"
  | .evaluation => "EvaluationError"
  | .undefinedFluent => "UndefinedFluentError"
  | .unknownAction => "UnknownActionError"
  | .arity => "ArityError"
  | .invalidDuration => "InvalidDurationError"
  | .unsupportedTiming => "UnsupportedTimingError"
  | .foreignEvent => "ForeignEventError"
  | .activityNotStarted => "ActivityNotStartedError"
  | .activityEnded => "ActivityEndedError"
  | .missingCapability => "MissingCapabilityError"
  | .inconsistentPlan => "InconsistentPlanError"

def code? : FaultKind → Option String
  | .range | .type => none
  | .validation => some "VALIDATION"
  | .evaluation => some "EVALUATION"
  | .undefinedFluent => some "UNDEFINED_FLUENT"
  | .unknownAction => some "UNKNOWN_ACTION"
  | .arity => some "ARITY"
  | .invalidDuration => some "INVALID_DURATION"
  | .unsupportedTiming => some "UNSUPPORTED_TIMING"
  | .foreignEvent => some "FOREIGN_EVENT"
  | .activityNotStarted => some "ACTIVITY_NOT_STARTED"
  | .activityEnded => some "ACTIVITY_ENDED"
  | .missingCapability => some "MISSING_CAPABILITY"
  | .inconsistentPlan => some "INCONSISTENT_PLAN"

end FaultKind

namespace Fault

def kind : Fault → FaultKind
  | .notAnInteger | .exponentOutOfRange _ => .range
  | .unusableLogger => .type
  | .invalidLiteral _ | .notFinite _ | .invalidConfiguration _ | .invalidOptions _
  | .selfOrdered _ | .cyclicOrdering | .durativeInSequence _ => .validation
  | .zeroDenominator | .divisionByZero _ | .unboundParameter _ | .notBoolean _ _
  | .notNumber _ _ | .notObject _ _ | .changeByNonNumber _ _ _
  | .wrongValueCount _ _ _ => .evaluation
  | .undefinedFluent _ => .undefinedFluent
  | .unknownAction _ _ => .unknownAction
  | .arity _ _ _ => .arity
  | .durationOfInstantaneous _ _ | .missingDuration _ | .negativeDuration _ _
  | .stepWithoutDuration _ => .invalidDuration
  | .planTiming _ _ | .outsideDuration _ _ _ | .secondSimulatedEffect _ _
  | .actionTimingInGoal _ | .unanchoredTimedEffect _ => .unsupportedTiming
  | .foreignEvent _ => .foreignEvent
  | .activityNotStarted _ _ => .activityNotStarted
  | .activityEnded _ _ => .activityEnded
  | .missingProvider _ => .missingCapability
  | .closingInconsistent | .schedulingInconsistent => .inconsistentPlan

def message : Fault → String
  | .invalidLiteral text => s!"Invalid rational literal: '{text}'"
  | .notFinite value => s!"Cannot represent {value} as a rational"
  | .notAnInteger => "The number is not an integer"
  | .exponentOutOfRange text => s!"The exponent of '{text}' is out of range"
  | .zeroDenominator => "Rational with a zero denominator"
  | .divisionByZero q => s!"Division by zero: {Number.text q} / 0"
  | .invalidConfiguration _ => "Invalid engine configuration"
  | .invalidOptions _ => "Invalid validator options"
  | .selfOrdered step => s!"Step '{step}' is ordered before itself"
  | .cyclicOrdering => "Cycle detected: the ordering of the plan steps is not a partial order"
  | .durativeInSequence step => s!"Sequential plans cannot contain durative action '{step}'"
  | .unboundParameter name => s!"Parameter '{name}' is not bound"
  | .notBoolean _ got => s!"Expected a boolean, got '{got}'"
  | .notNumber _ got => s!"Expected a number, got '{got}'"
  | .notObject fluent got => s!"Argument of '{fluent}' is not an object: '{got}'"
  | .undefinedFluent key => s!"Fluent '{key}' has no value and no default"
  | .changeByNonNumber kind key got => s!"'{kind.name}' of {key} by non-numeric value '{got}'"
  | .wrongValueCount activity given wanted =>
      let given := (given.map toString).getD "undefined"
      s!"Simulated effect of '{activity}' returned {given} value(s) for {wanted} fluent(s)"
  | .unknownAction action problem =>
      if problem.isEmpty then s!"Action '{action}' does not belong to the problem"
      else s!"Action '{action}' does not belong to problem '{problem}'"
  | .arity action expected actual =>
      s!"Action '{action}' takes {expected} parameter(s) but {actual} were given"
  | .durationOfInstantaneous action d =>
      s!"Instantaneous action '{action}' cannot take duration {Number.text d}"
  | .missingDuration action => s!"Durative action '{action}' needs a duration"
  | .negativeDuration action d =>
      s!"Durative action '{action}' cannot take negative duration {Number.text d}"
  | .stepWithoutDuration step => s!"Durative step '{step}' has no duration"
  | .planTiming action anchor => s!"Action '{action}' uses plan-level timing '{anchor.name}'"
  | .outsideDuration action timing d =>
      s!"Timing {timing.text} of '{action}' lies outside its duration {Number.text d}"
  | .secondSimulatedEffect action timing =>
      s!"'{action}' declares two simulated effects at {timing.text}"
  | .actionTimingInGoal anchor => s!"Timed goal uses action-level timing '{anchor.name}'"
  | .unanchoredTimedEffect anchor =>
      s!"Timed effects must be anchored at global start, not '{anchor.name}'"
  | .foreignEvent event => s!"Event {event} was not created by this simulator"
  | .activityNotStarted event activity =>
      s!"Event {event} belongs to '{activity}', which was never started in this state"
  | .activityEnded event activity =>
      s!"Event {event} belongs to '{activity}', which already ended in this state"
  | .missingProvider activity =>
      s!"'{activity}' declares simulated effects but no SimulatedEffectProvider was provided"
  | .closingInconsistent => "Cannot close an inconsistent STN plan"
  | .schedulingInconsistent => "Cannot schedule an inconsistent STN plan"
  | .unusableLogger => "The logger cannot take records"

def details : Fault → List (String × Detail)
  | .invalidConfiguration issues => [("issues", .issues issues)]
  | .invalidOptions issues => [("issues", .issues issues)]
  | .durativeInSequence step => [("instance", .text step)]
  | .unboundParameter name => [("parameter", .text name)]
  | .notBoolean kind _ => [("kind", .text kind)]
  | .notNumber kind _ => [("kind", .text kind)]
  | .undefinedFluent key => [("fluentKey", .text key)]
  | .unknownAction action _ => [("actionName", .text action)]
  | .arity action expected actual =>
      [("actionName", .text action), ("expected", .count expected), ("actual", .count actual)]
  | .durationOfInstantaneous action _ => [("action", .text action)]
  | .missingDuration action => [("action", .text action)]
  | .negativeDuration action _ => [("action", .text action)]
  | .stepWithoutDuration step => [("instance", .text step)]
  | .planTiming action anchor => [("action", .text action), ("anchor", .text anchor.name)]
  | .outsideDuration action _ d => [("action", .text action), ("duration", .text (Number.text d))]
  | .secondSimulatedEffect action _ => [("action", .text action)]
  | .actionTimingInGoal anchor => [("anchor", .text anchor.name)]
  | .unanchoredTimedEffect anchor => [("anchor", .text anchor.name)]
  | .foreignEvent event => [("event", .text event)]
  | .activityNotStarted event activity => [("event", .text event), ("activity", .text activity)]
  | .activityEnded event activity => [("event", .text event), ("activity", .text activity)]
  | .missingProvider activity =>
      [("capability", .text "SimulatedEffectProvider"), ("requiredBy", .text activity)]
  | _ => []

end Fault

end TemporalPlanning
