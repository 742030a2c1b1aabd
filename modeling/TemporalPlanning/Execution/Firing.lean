import TemporalPlanning.Execution.Provider

namespace TemporalPlanning

structure Delta where
  base : Rat
  amount : Rat
  deriving DecidableEq

structure Firing where
  reads : List String
  assigned : OrderedMap String Value
  deltas : OrderedMap String Delta
  clashes : List String

namespace Firing

def empty : Firing := ⟨[], .empty, .empty, []⟩

def read (f : Firing) (keys : List String) : Firing := { f with reads := f.reads ++ keys }

def clash (f : Firing) (key : String) (b : Bool) : Firing :=
  if b then { f with clashes := f.clashes ++ [key] } else f

def assign (f : Firing) (key : String) (v : Value) : Firing :=
  let other := (f.assigned.get? key).any fun w => !decide (w = v)
  let f := f.clash key (f.deltas.contains key || other)
  { f with assigned := f.assigned.put key v }

def change (f : Firing) (key : String) (base amount : Rat) : Firing :=
  let f := f.clash key (f.assigned.contains key)
  let before := ((f.deltas.get? key).map (·.amount)).getD 0
  { f with deltas := f.deltas.put key ⟨base, before + amount⟩ }

def simulate (f : Firing) (key : String) (v : Value) : Firing :=
  let f := f.clash key (f.assigned.contains key || f.deltas.contains key)
  { f with assigned := f.assigned.put key v }

def fireEffect (s : Situation) (f : Firing) (e : Effect) : Except Fault Firing := do
  let guardReads ← match e.condition with
    | some c => c.reads s
    | none => pure []
  let fires ← match e.condition with
    | some c => c.holds s
    | none => pure true
  if !fires then return f.read guardReads
  else
    let valueReads ← e.value.reads s
    let argReads ← Expr.readsAll s e.target.args
    let key ← e.target.ground s
    let v ← e.value.evaluate s
    let f := f.read (guardReads ++ valueReads ++ argReads)
    match e.kind, v with
    | .assign, v => return f.assign key v
    | kind, .number q =>
        let base ← e.target.expr.amount s
        return (f.read [key]).change key base (if kind = .increase then q else -q)
    | kind, v => .error (.changeByNonNumber kind key v.text)

def fireContinuous (s : Situation) (elapsed : Rat) (f : Firing) (e : ContinuousEffect) :
    Except Fault Firing := do
  let rateReads ← e.rate.reads s
  let key ← e.target.ground s
  let rate ← e.rate.amount s
  let base ← e.target.expr.amount s
  return (f.read (rateReads ++ [key])).change key base (e.direction.apply (rate * elapsed))

def fireTargets (s : Situation) (f : Firing) : List (FluentTerm × Value) → Except Fault Firing
  | [] => .ok f
  | (t, v) :: rest => do
      let key ← t.ground s
      fireTargets s (f.simulate key v) rest

def fireSimulated (provider : Option EffectProvider) (activity : Activity) (s : Situation)
    (f : Firing) (e : SimulatedEffect) : Except Fault Firing :=
  match provider with
  | none => .error (.missingProvider activity.label)
  | some p => do
      let values ← p.values ⟨e, activity, s⟩
      if values.length = e.targets.length then fireTargets s f (e.targets.zip values)
      else .error (.wrongValueCount activity.label (some values.length) e.targets.length)

def elapsed (e : Event) : Rat :=
  match e.interval? with
  | some i => i.upper - i.lower
  | none => 0

def ofEvent (provider : Option EffectProvider) (s : Situation) (e : Event) :
    Except Fault Firing := do
  let f ← e.effects.foldlM (fireEffect s) empty
  let f ← e.continuousEffects.foldlM (fireContinuous s (elapsed e)) f
  match e.simulated with
  | none => return f
  | some sim => fireSimulated provider e.activity s f sim

def conflicts (f : Firing) : List String := f.clashes.eraseDups

def updates (f : Firing) : OrderedMap String Value :=
  f.assigned.putAll <| (f.deltas.entries.filter fun e => !f.assigned.contains e.1).map fun e =>
    (e.1, .number (e.2.base + e.2.amount))

end Firing

end TemporalPlanning
