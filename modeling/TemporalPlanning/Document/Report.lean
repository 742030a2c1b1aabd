import TemporalPlanning.Document.Execution
import TemporalPlanning.Validation.Report

namespace TemporalPlanning

open Document (each orNull rat)

def Violation.document (v : Violation) : Document :=
  .record ([("kind", .text v.kind), ("message", .text v.message)] ++ match v with
    | .inapplicable t r => [("time", rat t), ("reason", r.document)]
    | .cannotEnd t r => [("time", rat t), ("reason", r.document)]
    | .simultaneousWrites t a b key =>
        [("time", rat t), ("events", .texts [a.label, b.label]), ("fluents", .texts [key])]
    | .trajectory c t => [("constraint", c.document), ("time", orNull rat t)]
    | .unsatisfiedGoals goals => [("goals", each Expr.document goals)]
    | .inconsistent w => Document.optional "witness" (fun w => .texts [w.1, w.2]) w)

def Report.document (r : Report) : Document :=
  .record [("status", .text r.status), ("violation", orNull Violation.document r.violation),
    ("unsatisfiedGoals", each Expr.document r.unsatisfied),
    ("metricValues", each (fun m => .list [.text m.1.name, rat m.2]) r.metrics),
    ("logs", each (fun n => .list [.text n.level.name, .text n.message]) r.notes),
    ("trace", each (fun t => .list [rat t.1, .text t.2]) r.trace)]

end TemporalPlanning
