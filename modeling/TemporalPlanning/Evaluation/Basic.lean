import TemporalPlanning.Evaluation.Valuation
import TemporalPlanning.Number.Numeral

namespace TemporalPlanning

structure Situation where
  defaults : OrderedMap String Value
  valuation : Valuation
  bindings : OrderedMap String String

def Situation.lookup (s : Situation) (key name : String) : Except Fault Value :=
  match s.valuation.get? key with
  | some v => .ok v
  | none =>
      match s.defaults.get? name with
      | some v => .ok v
      | none => .error (.undefinedFluent key)

namespace Value

def toBool (kind : String) : Value → Except Fault Bool
  | .bool b => .ok b
  | v => .error (.notBoolean kind v.text)

def toNumber (kind : String) : Value → Except Fault Rat
  | .number q => .ok q
  | v => .error (.notNumber kind v.text)

def toObject (fluent : String) : Value → Except Fault String
  | .object name => .ok name
  | v => .error (.notObject fluent v.text)

end Value

namespace Operator

def apply : Operator → Rat → Rat → Except Fault Rat
  | .plus, a, b => .ok (a + b)
  | .minus, a, b => .ok (a - b)
  | .times, a, b => .ok (a * b)
  | .div, a, b => Number.divide a b

def combine (op : Operator) : List Rat → Except Fault Rat
  | [] => .ok (if op = .times then 1 else 0)
  | [a] => .ok (if op = .minus then -a else a)
  | a :: rest => rest.foldlM op.apply a

end Operator

namespace Expr

mutual

def evaluate (s : Situation) : Expr → Except Fault Value
  | .constant v => .ok v
  | .param name =>
      match s.bindings.get? name with
      | some o => .ok (.object o)
      | none => .error (.unboundParameter name)
  | .fluent name args => do
      let objects ← evaluateObjects s name args
      s.lookup (fluentKey name objects) name
  | .not arg => do
      let b ← (← evaluate s arg).toBool arg.kind
      return .bool !b
  | .junction .and args => .bool <$> evaluateAll s args
  | .junction .or args => .bool <$> evaluateAny s args
  | .relation .implies left right => do
      let premise ← (← evaluate s left).toBool left.kind
      if premise then
        return .bool (← (← evaluate s right).toBool right.kind)
      else return .bool true
  | .relation .equals left right => do
      let a ← evaluate s left
      let b ← evaluate s right
      return .bool (a = b)
  | .relation .less left right => do
      let a ← (← evaluate s left).toNumber left.kind
      let b ← (← evaluate s right).toNumber right.kind
      return .bool (a < b)
  | .relation .atMost left right => do
      let a ← (← evaluate s left).toNumber left.kind
      let b ← (← evaluate s right).toNumber right.kind
      return .bool (a ≤ b)
  | .arithmetic op args => do
      let operands ← evaluateNumbers s args
      .number <$> op.combine operands

def evaluateObjects (s : Situation) (fluent : String) : List Expr → Except Fault (List String)
  | [] => .ok []
  | e :: es => do
      let o ← (← evaluate s e).toObject fluent
      return o :: (← evaluateObjects s fluent es)

def evaluateNumbers (s : Situation) : List Expr → Except Fault (List Rat)
  | [] => .ok []
  | e :: es => do
      let q ← (← evaluate s e).toNumber e.kind
      return q :: (← evaluateNumbers s es)

def evaluateAll (s : Situation) : List Expr → Except Fault Bool
  | [] => .ok true
  | e :: es => do
      if ← (← evaluate s e).toBool e.kind then evaluateAll s es else return false

def evaluateAny (s : Situation) : List Expr → Except Fault Bool
  | [] => .ok false
  | e :: es => do
      if ← (← evaluate s e).toBool e.kind then return true else evaluateAny s es

end

def holds (s : Situation) (e : Expr) : Except Fault Bool := do (← e.evaluate s).toBool e.kind

def amount (s : Situation) (e : Expr) : Except Fault Rat := do (← e.evaluate s).toNumber e.kind

end Expr

def FluentTerm.ground (s : Situation) (f : FluentTerm) : Except Fault String := do
  return fluentKey f.name (← Expr.evaluateObjects s f.name f.args)

namespace Expr

mutual

def reads (s : Situation) : Expr → Except Fault (List String)
  | .constant _ => .ok []
  | .param _ => .ok []
  | .fluent name args => do
      let inner ← readsAll s args
      let key ← FluentTerm.ground s ⟨name, args⟩
      return inner ++ [key]
  | .not arg => reads s arg
  | .junction _ args => readsAll s args
  | .relation _ left right => do
      let a ← reads s left
      let b ← reads s right
      return a ++ b
  | .arithmetic _ args => readsAll s args

def readsAll (s : Situation) : List Expr → Except Fault (List String)
  | [] => .ok []
  | e :: es => do
      let a ← reads s e
      let b ← readsAll s es
      return a ++ b

end

end Expr

structure FluentLiteral where
  fluent : String
  positive : Bool
  deriving DecidableEq

def FluentLiteral.contradicts (a b : FluentLiteral) : Bool :=
  a.fluent = b.fluent && a.positive != b.positive

namespace Expr

mutual

def literals (s : Situation) : Expr → Except Fault (List FluentLiteral)
  | .fluent name args => do return [⟨← FluentTerm.ground s ⟨name, args⟩, true⟩]
  | .not (.fluent name args) => do return [⟨← FluentTerm.ground s ⟨name, args⟩, false⟩]
  | .junction .and args => literalsAll s args
  | _ => .ok []

def literalsAll (s : Situation) : List Expr → Except Fault (List FluentLiteral)
  | [] => .ok []
  | e :: es => do
      let a ← literals s e
      let b ← literalsAll s es
      return a ++ b

end

end Expr

end TemporalPlanning
