import TemporalPlanning.Execution.Event
import TemporalPlanning.Number.Numeral

namespace TemporalPlanning

structure Clock where
  epsilon : Rat
  next : Nat

def Clock.place (c : Clock) (n : Nat) (activity : Activity) (offset : Rat) (fromEnd : Bool)
    (suffix : String) : Placement :=
  ⟨c.next + n, activity, offset, fromEnd, activity.label ++ "." ++ suffix⟩

namespace DurativeAction

def offset (a : DurativeAction) (duration : Rat) (t : Timing) : Except Fault Rat :=
  let within (q : Rat) : Except Fault Rat :=
    if q < 0 ∨ duration < q then .error (.outsideDuration a.name t duration) else .ok q
  match t.anchor with
  | .start => within t.delay
  | .finish => within (duration - t.delay)
  | anchor => .error (.planTiming a.name anchor)

end DurativeAction

inductive Place where
  | start
  | finish
  | inner
  deriving DecidableEq

/-- An action of no duration has its end where it has its start; the anchor then decides. -/
def Place.ofOffset (anchor : Anchor) (offset duration : Rat) : Place :=
  if anchor = .finish ∧ offset = duration then .finish
  else if offset = 0 then .start
  else if offset = duration then .finish
  else .inner

structure Span where
  lower : Rat
  upper : Rat
  leftOpen : Bool
  rightOpen : Bool
  deriving DecidableEq

namespace Span

def isEmpty (s : Span) : Bool :=
  s.upper < s.lower || (s.lower = s.upper && (s.leftOpen || s.rightOpen))

def label (s : Span) : String :=
  bracketed s.leftOpen s.rightOpen (Number.text s.lower ++ ", " ++ Number.text s.upper)

def instant (q : Rat) : Span := ⟨q, q, false, false⟩

/-- Open ends are moved inwards by `epsilon`; without room for it both ends meet in the middle. -/
def shifted (s : Span) (epsilon : Rat) : Rat × Rat :=
  let lower := if s.leftOpen then s.lower + epsilon else s.lower
  let upper := if s.rightOpen then s.upper - epsilon else s.upper
  if upper < lower then ((s.lower + s.upper) / 2, (s.lower + s.upper) / 2) else (lower, upper)

end Span

structure SpanContent where
  conditions : List Expr
  continuousEffects : List ContinuousEffect
  effects : List Effect
  simulated : Option SimulatedEffect

def SpanContent.empty : SpanContent := ⟨[], [], [], none⟩

structure Timeline where
  start : ActionBody
  finish : ActionBody
  spans : OrderedMap Span SpanContent

namespace Timeline

def empty : Timeline := ⟨.empty, .empty, .empty⟩

def at? (t : Timeline) (s : Span) : SpanContent := (t.spans.get? s).getD .empty

def onSpan (t : Timeline) (s : Span) (f : SpanContent → SpanContent) : Timeline :=
  { t with spans := t.spans.put s (f (t.at? s)) }

def onStart (t : Timeline) (c : Expr) : Timeline :=
  { t with start := { t.start with conditions := t.start.conditions ++ [c] } }

def onFinish (t : Timeline) (c : Expr) : Timeline :=
  { t with finish := { t.finish with conditions := t.finish.conditions ++ [c] } }

def span (a : DurativeAction) (d : Rat) (i : Interval) : Except Fault Span := do
  let lower ← a.offset d i.lower
  let upper ← a.offset d i.upper
  return ⟨lower, upper, i.leftOpen, i.rightOpen⟩

def addOver (t : Timeline) (s : Span) (c : Expr) : Timeline :=
  let t := if !s.leftOpen && s.lower = 0 then t.onStart c else t
  t.onSpan s fun x => { x with conditions := x.conditions ++ [c] }

def addCondition (a : DurativeAction) (d : Rat) (t : Timeline) (c : TimedCondition) :
    Except Fault Timeline := do
  let s ← span a d c.interval
  if s.isEmpty then return t
  else if s.lower = s.upper then
    match Place.ofOffset c.interval.lower.anchor s.lower d with
    | .start => return t.onStart c.condition
    | .finish => return t.onFinish c.condition
    | .inner => return t.addOver s c.condition
  else return t.addOver s c.condition

def addEffect (a : DurativeAction) (d : Rat) (t : Timeline) (e : TimedEffect) :
    Except Fault Timeline := do
  let q ← a.offset d e.timing
  match Place.ofOffset e.timing.anchor q d with
  | .start => return { t with start := { t.start with effects := t.start.effects ++ [e.effect] } }
  | .finish =>
      return { t with finish := { t.finish with effects := t.finish.effects ++ [e.effect] } }
  | .inner => return t.onSpan (.instant q) fun x => { x with effects := x.effects ++ [e.effect] }

def addSimulated (a : DurativeAction) (d : Rat) (t : Timeline) (e : SimulatedEffect) :
    Except Fault Timeline := do
  let q ← a.offset d e.timing
  let (present, t) := match Place.ofOffset e.timing.anchor q d with
    | .start => (t.start.simulated, { t with start := { t.start with simulated := some e } })
    | .finish => (t.finish.simulated, { t with finish := { t.finish with simulated := some e } })
    | .inner =>
        ((t.at? (.instant q)).simulated,
          t.onSpan (.instant q) fun x => { x with simulated := some e })
  match present with
  | some _ => .error (.secondSimulatedEffect a.name e.timing)
  | none => return t

def addContinuous (a : DurativeAction) (d : Rat) (t : Timeline) (e : ContinuousEffect) :
    Except Fault Timeline := do
  let s ← span a d e.interval
  if s.isEmpty then return t
  else return t.onSpan s fun x => { x with continuousEffects := x.continuousEffects ++ [e] }

def ofAction (a : DurativeAction) (d : Rat) : Except Fault Timeline := do
  let t ← a.conditions.foldlM (addCondition a d) empty
  let t ← a.effects.foldlM (addEffect a d) t
  let t ← a.simulatedEffects.foldlM (addSimulated a d) t
  a.continuousEffects.foldlM (addContinuous a d) t

def spanEvents (c : Clock) (activity : Activity) (n : Nat) (s : Span) (x : SpanContent) :
    List Event :=
  let interval : IntervalCondition :=
    ⟨c.next + n, activity, .conjunction x.conditions, s.lower, s.upper, s.leftOpen, s.rightOpen,
      x.continuousEffects, x.effects, x.simulated, s.label⟩
  let (opening, closing) := s.shifted c.epsilon
  [.startCondition (c.place n activity opening false ("open" ++ s.label)) interval,
    .endCondition (c.place (n + 1) activity closing false ("close" ++ s.label)) interval]

def innerEvents (c : Clock) (activity : Activity) : Nat → List (Span × SpanContent) → List Event
  | _, [] => []
  | n, (s, x) :: rest => spanEvents c activity n s x ++ innerEvents c activity (n + 2) rest

def events (t : Timeline) (c : Clock) (activity : Activity) (d : Rat) : List Event :=
  let inner := innerEvents c activity 1 t.spans.entries
  let finish : Event := .endAction (c.place (1 + inner.length) activity d false "end") t.finish
  let committed := Event.sort (inner ++ [finish])
  .startAction (c.place 0 activity 0 false "start") t.start d committed :: committed

end Timeline

def InstantaneousAction.events (a : InstantaneousAction) (c : Clock) (activity : Activity) :
    List Event :=
  let finish : Event := .endAction (c.place 1 activity 0 false "end") .empty
  [.startAction (c.place 0 activity 0 false "start") ⟨a.preconditions, a.effects, a.simulated⟩ 0
    [finish], finish]

def Action.events (c : Clock) (activity : Activity) (duration : Option Rat) :
    Action → Except Fault (List Event)
  | .instantaneous a =>
      match duration with
      | some d =>
          if d = 0 then .ok (a.events c activity) else .error (.durationOfInstantaneous a.name d)
      | none => .ok (a.events c activity)
  | .durative a =>
      match duration with
      | none => .error (.missingDuration a.name)
      | some d =>
          if d < 0 then .error (.negativeDuration a.name d)
          else do
            let t ← Timeline.ofAction a d
            return t.events c activity d

end TemporalPlanning
