import TemporalPlanning.Document.Basic
import TemporalPlanning.Journal

namespace TemporalPlanning

def Issue.document (i : Issue) : Document :=
  .record [("path", .text i.path), ("message", .text i.message)]

def Detail.document : Detail → Document
  | .text s => .text s
  | .count n => .natural n
  | .issues list => .each Issue.document list

def Fault.document (f : Fault) : Document :=
  .record (("error", .text f.kind.name) :: match f.kind.code? with
    | none => []
    | some code =>
        [("code", .text code), ("message", .text f.message)] ++
          if f.details.isEmpty then []
          else [("details", .record (f.details.map fun d => (d.1, d.2.document)))])

def Record.document (r : Record) : Document :=
  .record [("component", .text r.component), ("level", .text r.severity.name),
    ("fields", .record (r.fields.map fun f => (f.1, .text f.2))), ("msg", .text r.message)]

end TemporalPlanning
