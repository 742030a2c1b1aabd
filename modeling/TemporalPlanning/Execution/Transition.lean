import TemporalPlanning.Execution.Refusal
import TemporalPlanning.Execution.Simulator
import TemporalPlanning.Journal

namespace TemporalPlanning

/-- A step that may be refused, besides ending in a fault. -/
abbrev Attempt (α : Type) : Type := ExceptT Cause (Except Fault) α

namespace Attempt

def refuse {α : Type} (c : Cause) : Attempt α := ExceptT.mk (.ok (.error c))

def fault {α : Type} (f : Fault) : Attempt α := ExceptT.mk (.error f)

def ofExcept {α : Type} (x : Except Fault α) : Attempt α := ExceptT.mk (x.map .ok)

def require (holds : Bool) (c : Cause) : Attempt Unit := if holds then pure () else refuse c

end Attempt

namespace Simulator

def checkPlanOrder (e : Event) (pending : List Event) (s : State) : Attempt Unit := do
  Attempt.require (pending.any (·.id = e.id)) .alreadyApplied
  match e with
  | .endCondition _ i => Attempt.require (s.isOpen i) (.notOpened i)
  | .endAction _ _ => do
      let others := (s.agenda.values.map (·.activity)).filter fun a => !decide (a.id = 0)
      Attempt.require others.isEmpty (.planStillRuns others)
      Attempt.require (pending.length ≤ 1) (.goalsUnchecked (pending.filter fun p => p.id ≠ e.id))
  | _ => pure ()

def checkStart (e : Event) (s : State) : Attempt Unit := do
  let a := e.activity
  Attempt.require (a.id ≠ 0 && (s.pending? a).isNone) .alreadyRunning
  if s.hasEnded a then Attempt.fault (.activityEnded e.label a.label) else pure ()

def checkNext (e : Event) (s : State) : Attempt Unit := do
  let a := e.activity
  match s.pending? a with
  | none =>
      Attempt.fault (if s.hasEnded a then .activityEnded e.label a.label
        else .activityNotStarted e.label a.label)
  | some pending =>
      if a.id = 0 then checkPlanOrder e pending s
      else
        Attempt.require ((pending.head?.map (·.id)) = some e.id) (.expectsOther pending.head?)

def checkClosed (e : Event) (s : State) : Attempt Unit :=
  match e with
  | .endAction _ _ =>
      let mine := s.openConditions.filter fun i => i.activity.id = e.activity.id
      Attempt.require mine.isEmpty (.stillOpen mine)
  | _ => pure ()

def checkLifecycle (e : Event) (s : State) : Attempt Unit := do
  match e with
  | .startAction _ _ _ _ => checkStart e s
  | _ => do
      checkNext e s
      checkClosed e s

def checkDuration (e : Event) (s : Situation) : Attempt (List String) :=
  match e, e.activity.ground.map GroundAction.action with
  | .startAction _ _ d _, some (.durative a) => do
      let b := a.duration
      let lowerReads ← Attempt.ofExcept (b.lower.reads s)
      let upperReads ← Attempt.ofExcept (b.upper.reads s)
      let lower ← Attempt.ofExcept (b.lower.amount s)
      let upper ← Attempt.ofExcept (b.upper.amount s)
      let aboveLower := if b.lowerOpen then decide (lower < d) else decide (lower ≤ d)
      let belowUpper := if b.upperOpen then decide (d < upper) else decide (d ≤ upper)
      Attempt.require (aboveLower && belowUpper)
        (.durationOutside d lower upper b.lowerOpen b.upperOpen)
      return lowerReads ++ upperReads
  | _, _ => pure []

def pointConditions : Event → List Expr
  | .startAction _ b _ _ => b.conditions
  | .endAction _ b => b.conditions
  | .startCondition _ i => if i.leftOpen then [] else [i.condition]
  | .endCondition _ i => if i.rightOpen then [] else [i.condition]

def checkConditions (s : Situation) : List Expr → Attempt (List String)
  | [] => pure []
  | c :: cs => do
      let reads ← Attempt.ofExcept (c.reads s)
      let holds ← Attempt.ofExcept (c.holds s)
      Attempt.require holds (.unsatisfied c)
      return reads ++ (← checkConditions s cs)

def contradictedBy (sim : Simulator) (v : Valuation) (mine : List FluentLiteral) :
    List IntervalCondition → Except Fault (Option IntervalCondition)
  | [] => .ok none
  | i :: is => do
      let theirs ← i.condition.literals (sim.situation v i.activity.bindings)
      if mine.any fun m => theirs.any m.contradicts then return some i
      else contradictedBy sim v mine is

def checkOpening (sim : Simulator) (e : Event) (s : State) : Attempt (List String) :=
  match e with
  | .startCondition _ i => do
      let here := sim.situation s.valuation i.activity.bindings
      let reads ← Attempt.ofExcept (i.condition.reads here)
      let mine ← Attempt.ofExcept (i.condition.literals here)
      let clash ← Attempt.ofExcept
        (if mine.isEmpty then .ok none else sim.contradictedBy s.valuation mine s.openConditions)
      match clash with
      | some other => Attempt.refuse (.contradicts i other)
      | none => return reads
  | _ => pure []

def openAfter (e : Event) (opened : List IntervalCondition) : List IntervalCondition :=
  match e with
  | .startCondition _ i => opened ++ [i]
  | .endCondition _ i => opened.eraseP fun o => o.id = i.id
  | _ => opened

def checkOpen (sim : Simulator) (v : Valuation) : List IntervalCondition → Attempt Unit
  | [] => pure ()
  | i :: is => do
      let holds ← Attempt.ofExcept (i.condition.holds (sim.situation v i.activity.bindings))
      Attempt.require holds (.violates i)
      checkOpen sim v is

def overlap (a b : List String) : Bool := a.any b.contains

def sameInstant (a b : Event) : Bool :=
  a.activity.id = b.activity.id && a.fromEnd = b.fromEnd && a.offset = b.offset

/--
How long an event comes after an earlier one at least: `epsilon` if one of them writes what the
other reads or writes, nothing if they only read in common. Events of the plan observe the others
and need no distance.
-/
def separation (epsilon : Rat) (next past : Applied) : Option Rat :=
  if sameInstant past.event next.event then none
  else if past.event.activity.id = 0 || next.event.activity.id = 0 then none
  else if overlap next.writes past.writes || overlap next.writes past.reads ||
      overlap next.reads past.writes then some epsilon
  else if overlap next.reads past.reads then some 0
  else none

def separateFrom (epsilon : Rat) (next : Applied) (net : Network EventRef) (past : Applied) :
    Network EventRef :=
  match separation epsilon next past with
  | some d => net.add past.event.ref next.event.ref (some d) none
  | none => net

def commit (e : Event) (net : Network EventRef) : Network EventRef :=
  e.committed.foldl (fun net c => net.add e.ref c.ref (some c.offset) (some c.offset)) net

def pin (sim : Simulator) (e : Event) (time : Option Rat) (net : Network EventRef) :
    Network EventRef :=
  match time with
  | some t => net.add sim.planStart.ref e.ref (some t) (some t)
  | none => net

def networkAfter (sim : Simulator) (s : State) (next : Applied) (time : Option Rat) :
    Network EventRef :=
  let net := commit next.event s.network
  let net := net.add s.last.event.ref next.event.ref (some 0) none
  let net := s.history.foldl (separateFrom sim.epsilon next) net
  sim.pin next.event time net

def agendaAfter (e : Event) (agenda : OrderedMap Nat Running) : OrderedMap Nat Running :=
  let a := e.activity
  match e with
  | .startAction _ _ _ committed => agenda.put a.id ⟨a, committed⟩
  | .endAction _ _ => agenda.erase a.id
  | _ =>
      let pending := ((agenda.get? a.id).map (·.pending)).getD []
      agenda.put a.id ⟨a, pending.filter fun p => p.id ≠ e.id⟩

def endedAfter (e : Event) (ended : List Activity) : List Activity :=
  match e with
  | .endAction _ _ => ended ++ [e.activity]
  | _ => ended

def examine (sim : Simulator) (e : Event) (s : State) : Attempt (Valuation × Applied) := do
  if e.origin ≠ sim.origin then Attempt.fault (.foreignEvent e.label)
  else
    checkLifecycle e s
    let here := sim.situation s.valuation e.activity.bindings
    let durationReads ← checkDuration e here
    let pointReads ← checkConditions here (pointConditions e)
    let openingReads ← sim.checkOpening e s
    let firing ← Attempt.ofExcept (Firing.ofEvent sim.provider here e)
    Attempt.require firing.conflicts.isEmpty (.conflicting firing.conflicts)
    let valuation := s.valuation.update firing.updates
    sim.checkOpen valuation (openAfter e s.openConditions)
    let reads := durationReads ++ pointReads ++ openingReads ++ firing.reads
    return (valuation, ⟨e, reads.eraseDups, firing.updates.keys⟩)

def stateAfter (sim : Simulator) (s : State) (valuation : Valuation) (applied : Applied)
    (time : Option Rat) : State where
  valuation
  network := sim.networkAfter s applied time
  openConditions := openAfter applied.event s.openConditions
  agenda := agendaAfter applied.event s.agenda
  ended := endedAfter applied.event s.ended
  last := applied
  past := s.history

def transition (sim : Simulator) (e : Event) (s : State) (time : Option Rat) : Attempt State := do
  let (valuation, applied) ← sim.examine e s
  let next := sim.stateAfter s valuation applied time
  Attempt.require next.network.check (.inconsistent next.network.witness)
  return next

def refusalRecord (sim : Simulator) (r : Refusal) : Record :=
  ⟨sim.component, .debug, [("event", r.event.label), ("reason", r.kind.name)], r.message⟩

def tryApply (sim : Simulator) (e : Event) (s : State) (time : Option Rat) :
    Logged (Except Refusal State) := do
  match ← Logged.ofExcept (sim.transition e s time).run with
  | .ok next => return .ok next
  | .error cause =>
      Logged.write (sim.refusalRecord ⟨e, cause⟩)
      return .error ⟨e, cause⟩

def explain (sim : Simulator) (e : Event) (s : State) (time : Option Rat) :
    Logged (Option Refusal) := do
  match ← sim.tryApply e s time with
  | .ok _ => return none
  | .error r => return some r

def isApplicable (sim : Simulator) (e : Event) (s : State) (time : Option Rat) : Logged Bool := do
  return (← sim.explain e s time).isNone

def isGoal (sim : Simulator) (s : State) : Logged Bool := do
  match ← Logged.ofExcept (sim.unsatisfiedGoals s) with
  | [] => sim.isApplicable sim.planEnd s none
  | _ => return false

def run (sim : Simulator) : List Event → State → Logged (List Event × State × Option Refusal)
  | [], s => return ([], s, none)
  | e :: es, s => do
      match ← sim.tryApply e s none with
      | .error r => return ([], s, some r)
      | .ok next =>
          let (done, reached, stopped) ← sim.run es next
          return (e :: done, reached, stopped)

end Simulator

end TemporalPlanning
