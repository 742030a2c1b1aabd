import TemporalPlanning.Document.Model
import TemporalPlanning.Execution.Refusal
import TemporalPlanning.Execution.State

namespace TemporalPlanning

open Document (optional each orNull rat)

def labels (es : List Event) : Document := .texts (es.map Event.label)

def Activity.document (a : Activity) : Document :=
  .record ([("id", .natural a.id), ("label", .text a.label),
    ("bindings", .record (a.bindings.entries.map fun b => (b.1, .text b.2)))] ++
    optional "instance" (fun g => .text g.label) a.ground)

def IntervalCondition.document (i : IntervalCondition) : Document :=
  .record ([("activity", .text i.activity.label), ("condition", i.condition.document),
    ("lower", rat i.lower), ("upper", rat i.upper), ("leftOpen", .bool i.leftOpen),
    ("rightOpen", .bool i.rightOpen), ("label", .text i.label),
    ("continuousEffects", each ContinuousEffect.document i.continuousEffects),
    ("effects", each Effect.document i.effects)] ++
    optional "simulated" SimulatedEffect.document i.simulated)

def ActionBody.fields (b : ActionBody) : List (String × Document) :=
  [("conditions", each Expr.document b.conditions), ("effects", each Effect.document b.effects)] ++
    optional "simulated" SimulatedEffect.document b.simulated

namespace Event

def brief (e : Event) : Document := .texts [e.label, e.kind.name, Number.text e.offset]

def document (e : Event) : Document :=
  .record ([("id", .natural e.id), ("kind", .text e.kind.name), ("label", .text e.label),
    ("offset", rat e.offset), ("fromEnd", .bool e.fromEnd),
    ("activity", e.activity.document)] ++ match e with
    | .startAction _ b d es => b.fields ++ [("duration", rat d), ("committed", labels es)]
    | .startCondition _ i => [("interval", i.document)]
    | .endCondition _ i => [("interval", i.document)]
    | .endAction _ b => b.fields)

def effectsDocument (e : Event) : Document :=
  .record (("effects", each Effect.document e.effects) ::
    optional "simulated" SimulatedEffect.document e.simulated)

end Event

namespace Applied

def document (a : Applied) : Document :=
  .record [("event", .text a.event.label), ("reads", .sorted a.reads),
    ("writes", .sorted a.writes)]

def brief (a : Applied) : Document :=
  .list [.text a.event.label, .sorted a.reads, .sorted a.writes]

end Applied

def State.document (s : State) : Document :=
  .record [("depth", .natural s.depth), ("valuation", s.valuation.document),
    ("open", each (fun i => .text (i.activity.label ++ " " ++ i.label)) s.openConditions),
    ("agenda", each (fun r => .list [.text r.activity.label, labels r.pending]) s.agenda.values),
    ("ended", .sorted (s.ended.map Activity.label)), ("last", s.last.document)]

namespace Refusal

def document (r : Refusal) : Document :=
  .record ([("kind", .text r.kind.name), ("event", .text r.event.label),
    ("message", .text r.message)] ++ optional "condition" Expr.document r.condition? ++
    optional "fluents" .texts r.fluents? ++
    optional "witness" (fun w => .texts [w.1.label, w.2.label]) r.witness?)

def insistedDocument (r : Refusal) : Document :=
  .record [("error", .text "InapplicableEventError"), ("code", .text "INAPPLICABLE_EVENT"),
    ("message", .text r.insisted), ("reason", r.document),
    ("details", .record [("event", .text r.event.label), ("kind", .text r.kind.name)])]

end Refusal

end TemporalPlanning
