import TemporalPlanning.Evaluation.Basic
import TemporalPlanning.Execution.Event

namespace TemporalPlanning

structure EffectRequest where
  effect : SimulatedEffect
  activity : Activity
  situation : Situation

structure EffectProvider where
  values : EffectRequest → Except Fault (List Value)

def EffectProvider.uncounted : EffectProvider where
  values r := .error (.wrongValueCount r.activity.label none r.effect.targets.length)

def EffectProvider.ofTable (table : OrderedMap String (List Expr)) : EffectProvider where
  values r :=
    let name := match r.activity.ground with
      | some g => g.action.name
      | none => ""
    let exprs := match table.get? (name ++ "@" ++ r.effect.timing.text) with
      | some es => es
      | none => (table.get? name).getD []
    exprs.mapM fun e => e.evaluate r.situation

end TemporalPlanning
