import TemporalPlanning.Document.Basic
import TemporalPlanning.Evaluation.Valuation
import TemporalPlanning.Model.Problem

namespace TemporalPlanning

open Document (optional each orNull rat)

namespace Value

def document : Value → Document
  | .bool b => .bool b
  | .number q => rat q
  | .object name => .text name

def markedDocument : Value → Document
  | .number q => .record [("num", rat q)]
  | v => v.document

end Value

namespace Expr

mutual

def document : Expr → Document
  | .constant v =>
      .record [("kind", .text v.kind),
        (match v with
          | .object _ => "name"
          | _ => "value", v.document)]
  | .param name => .record [("kind", .text "param"), ("name", .text name)]
  | .fluent name args =>
      .record [("kind", .text "fluent"), ("name", .text name), ("args", .list (documents args))]
  | .not arg => .record [("kind", .text "not"), ("arg", document arg)]
  | .junction c args => .record [("kind", .text c.name), ("args", .list (documents args))]
  | .relation r left right =>
      .record [("kind", .text r.name), ("left", document left), ("right", document right)]
  | .arithmetic o args => .record [("kind", .text o.name), ("args", .list (documents args))]

def documents : List Expr → List Document
  | [] => []
  | e :: es => document e :: documents es

end

end Expr

def FluentTerm.document (f : FluentTerm) : Document := f.expr.document

def Timing.document (t : Timing) : Document :=
  .record [("anchor", .text t.anchor.name), ("delay", rat t.delay)]

def Interval.document (i : Interval) : Document :=
  .record [("lower", i.lower.document), ("upper", i.upper.document),
    ("leftOpen", .bool i.leftOpen), ("rightOpen", .bool i.rightOpen)]

def DurationBounds.document (b : DurationBounds) : Document :=
  .record [("lower", b.lower.document), ("upper", b.upper.document),
    ("lowerOpen", .bool b.lowerOpen), ("upperOpen", .bool b.upperOpen)]

def Effect.document (e : Effect) : Document :=
  .record ([("kind", .text e.kind.name), ("fluent", e.target.document),
    ("value", e.value.document)] ++ optional "condition" Expr.document e.condition)

def TimedCondition.document (c : TimedCondition) : Document :=
  .record [("interval", c.interval.document), ("condition", c.condition.document)]

def TimedEffect.document (e : TimedEffect) : Document :=
  .record [("timing", e.timing.document), ("effect", e.effect.document)]

def SimulatedEffect.document (e : SimulatedEffect) : Document :=
  .record [("timing", e.timing.document), ("fluents", each FluentTerm.document e.targets)]

def ContinuousEffect.document (e : ContinuousEffect) : Document :=
  .record [("kind", .text e.direction.name), ("interval", e.interval.document),
    ("fluent", e.target.document), ("rate", e.rate.document)]

def namedDocument (name type : String) : Document :=
  .record [("name", .text name), ("type", .text type)]

def Action.document (a : Action) : Document :=
  .record ([("name", .text a.name),
    ("parameters", each (fun p => namedDocument p.name p.type) a.parameters)] ++ match a with
    | .instantaneous a =>
        [("kind", .text "instantaneous"), ("preconditions", each Expr.document a.preconditions),
          ("effects", each Effect.document a.effects)] ++
          optional "simulatedEffect" SimulatedEffect.document a.simulated
    | .durative a =>
        [("kind", .text "durative"), ("duration", a.duration.document),
          ("conditions", each TimedCondition.document a.conditions),
          ("effects", each TimedEffect.document a.effects),
          ("continuousEffects", each ContinuousEffect.document a.continuousEffects),
          ("simulatedEffects", each SimulatedEffect.document a.simulatedEffects)])

def entriesDocument {α : Type} (describe : α → Document) (m : OrderedMap String α) : Document :=
  each (fun e => .list [.text e.1, describe e.2]) m.entries

def Metric.document (m : Metric) : Document :=
  .record (("kind", .text m.name) :: match m with
    | .makespan => []
    | .planLength => []
    | .actionCosts costs default =>
        ("costs", entriesDocument Expr.document costs) ::
          optional "defaultCost" Expr.document default
    | .minimize e => [("expression", e.document)]
    | .maximize e => [("expression", e.document)]
    | .oversubscription goals =>
        [("goals", each (fun g =>
          .record [("goal", g.goal.document), ("gain", rat g.gain)]) goals)])

def TrajectoryConstraint.document (c : TrajectoryConstraint) : Document :=
  .record [("kind", .text c.kind.name), ("condition", c.condition.document)]

def FluentDeclaration.document (f : FluentDeclaration) : Document :=
  .record ([("name", .text f.name), ("type", .text f.type),
    ("parameters", .texts f.parameters)] ++ optional "defaultValue" Value.document f.default)

def Problem.document (p : Problem) : Document :=
  .record [("name", .text p.name), ("fluents", each FluentDeclaration.document p.fluents),
    ("objects", each (fun o => namedDocument o.name o.type) p.objects),
    ("actions", each Action.document p.actions),
    ("initialValues", entriesDocument Value.document p.initial),
    ("goals", each Expr.document p.goals),
    ("timedGoals", each TimedCondition.document p.timedGoals),
    ("timedEffects", each TimedEffect.document p.timedEffects),
    ("trajectoryConstraints", each TrajectoryConstraint.document p.trajectory),
    ("qualityMetrics", each Metric.document p.metrics)]

def Valuation.document (v : Valuation) : Document :=
  .record (v.toMap.entries.map fun e => (e.1, e.2.markedDocument))

end TemporalPlanning
