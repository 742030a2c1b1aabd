import TemporalPlanning.Document.Basic
import TemporalPlanning.Network

namespace TemporalPlanning.Network

open Document (orNull rat)

variable {ν : Type} [DecidableEq ν]

def witnessDocument (name : ν → String) (net : Network ν) : Document :=
  orNull (fun w => .texts [name w.1, name w.2]) net.witness

def boundDocument (net : Network ν) (a b : ν) : Document :=
  .record [("lower", orNull rat (net.lower a b)), ("upper", orNull rat (net.upper a b))]

def document (name : ν → String) (net : Network ν) : Document :=
  let edges := net.edges.map fun e => (name e.1, name e.2.1, e.2.2)
  let notAfter (x y : String × String × Rat) : Bool :=
    Text.unitsBefore x.1 y.1 || (x.1 = y.1 && !Text.unitsBefore y.2.1 x.2.1)
  .record [("check", .bool net.check), ("witness", net.witnessDocument name),
    ("nodes", .each (fun a => .list [.text (name a), orNull rat (net.model a)]) net.nodes),
    ("edges", .each (fun e => .texts [e.1, e.2.1, Number.text e.2.2])
      (edges.mergeSort notAfter))]

end TemporalPlanning.Network
