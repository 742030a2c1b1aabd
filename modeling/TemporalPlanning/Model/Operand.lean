import TemporalPlanning.Number.Numeral

namespace TemporalPlanning

open Number (Numeral)

inductive Operand where
  | expr (e : Expr)
  | bool (b : Bool)
  | numeral (n : Numeral)

namespace Operand

def lift : Operand → Except Fault Expr
  | .expr e => .ok e
  | .bool b => .ok (.bool b)
  | .numeral n => .number <$> n.toRat

def looksNumeric (s : String) : Bool :=
  match s.toList with
  | [] => false
  | c :: _ => c.isDigit || c = '-' || c = '+' || c = '.' || c = '/'

def liftAssigned : Operand → Except Fault Expr
  | .numeral (.text s) => if looksNumeric s then lift (.numeral (.text s)) else .ok (.object s)
  | o => o.lift

end Operand

namespace Expr

def related (r : Relation) (left right : Operand) : Except Fault Expr := do
  let a ← left.lift
  let b ← right.lift
  return .relation r a b

def equals : Operand → Operand → Except Fault Expr := related .equals

def less : Operand → Operand → Except Fault Expr := related .less

def atMost : Operand → Operand → Except Fault Expr := related .atMost

def greater (left right : Operand) : Except Fault Expr := less right left

def atLeast (left right : Operand) : Except Fault Expr := atMost right left

def computed (op : Operator) (operands : List Operand) : Except Fault Expr :=
  .arithmetic op <$> operands.mapM Operand.lift

end Expr

namespace Effect

def make (kind : EffectKind) (target : FluentTerm) (value : Operand) (condition : Option Expr) :
    Except Fault Effect := do
  let v ← if kind = .assign then value.liftAssigned else value.lift
  return ⟨kind, target, v, condition⟩

end Effect

namespace DurationBounds

def fixed (n : Numeral) : Except Fault DurationBounds := do
  let e ← Operand.lift (.numeral n)
  return ⟨e, e, false, false⟩

def between (lower upper : Operand) (lowerOpen upperOpen : Bool) : Except Fault DurationBounds := do
  let l ← lower.lift
  let u ← upper.lift
  return ⟨l, u, lowerOpen, upperOpen⟩

end DurationBounds

def ContinuousEffect.make (direction : Direction) (interval : Interval) (target : FluentTerm)
    (rate : Operand) : Except Fault ContinuousEffect := do
  return ⟨direction, interval, target, ← rate.lift⟩

end TemporalPlanning
