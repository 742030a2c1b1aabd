import TemporalPlanning.Plan.Instance
import TemporalPlanning.Stn.Replacement

namespace TemporalPlanning

def TimedStep.length (s : TimedStep) : Except Fault Rat :=
  if s.step.action.isDurative then
    match s.duration with
    | some d => .ok d
    | none => .error (.stepWithoutDuration s.step.label)
  else .ok 0

namespace StnPlan

def stepConstraints (s : TimedStep) :
    Except Fault (List (Timepoint ActionInstance × StnConstraint ActionInstance)) := do
  let d ← s.length
  return [(.planStart, ⟨some s.start, some s.start, .start s.step⟩),
    (.start s.step, ⟨some d, some d, .finish s.step⟩)]

def ofTimedSteps (steps : List TimedStep) : Except Fault (StnPlan ActionInstance) := do
  return ofConstraints (← steps.mapM stepConstraints).flatten

def earliest (closure : Rows (Timepoint ActionInstance)) (t : Timepoint ActionInstance) : Rat :=
  match closure.weight? t .planStart with
  | some w => -w
  | none => 0

def earliestStep (p : StnPlan ActionInstance) (closure : Rows (Timepoint ActionInstance))
    (s : ActionInstance) : TimedStep :=
  let start := earliest closure (.start s)
  let finish := if Timepoint.finish s ∈ p.nodes then earliest closure (.finish s) else start
  ⟨start, s, if s.action.isDurative then some (finish - start) else none⟩

def schedule (p : StnPlan ActionInstance) : Except Fault (List TimedStep) :=
  if p.isConsistent then do
    let closure ← p.closure
    return (p.instances.map (p.earliestStep closure)).mergeSort fun a b => a.start ≤ b.start
  else .error .schedulingInconsistent

end StnPlan

end TemporalPlanning
