import TemporalPlanning.Validation.Report

namespace TemporalPlanning

structure Watch where
  constraint : TrajectoryConstraint
  seen : Bool
  holding : Bool
  occurrences : Nat

namespace Watch

def start (c : TrajectoryConstraint) : Watch := ⟨c, false, false, 0⟩

def next (w : Watch) (holds : Bool) : Watch :=
  match w.constraint.kind with
  | .always => w
  | .sometime => { w with seen := w.seen || holds }
  | .atMostOnce =>
      let risen := holds && !w.holding
      { w with holding := holds, occurrences := if risen then w.occurrences + 1 else w.occurrences }

def isBroken (w : Watch) (holds : Bool) : Bool :=
  match w.constraint.kind with
  | .always => !holds
  | .sometime => false
  | .atMostOnce => 1 < w.occurrences

end Watch

abbrev Monitor : Type := List Watch

namespace Monitor

def start (cs : List TrajectoryConstraint) : Monitor := cs.map Watch.start

def visit (holds : Expr → Except Fault Bool) (time : Rat) :
    Monitor → Except Fault (Monitor × Option Violation)
  | [] => .ok ([], none)
  | w :: ws => do
      let b ← holds w.constraint.condition
      let w := w.next b
      if w.isBroken b then return (w :: ws, some (.trajectory w.constraint (some time)))
      else
        let (ws, violation) ← visit holds time ws
        return (w :: ws, violation)

def finish (m : Monitor) : Option Violation :=
  (m.find? fun w => w.constraint.kind = .sometime && !w.seen).map fun w =>
    .trajectory w.constraint none

end Monitor

end TemporalPlanning
