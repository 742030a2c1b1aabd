import TemporalPlanning.Number.Literal

namespace TemporalPlanning

inductive Value where
  | bool (b : Bool)
  | number (q : Rat)
  | object (name : String)
  deriving DecidableEq

namespace Value

def text : Value → String
  | .bool true => "true"
  | .bool false => "false"
  | .number q => Number.text q
  | .object name => name

def kind : Value → String
  | .bool _ => "bool"
  | .number _ => "number"
  | .object _ => "object"

end Value

inductive Connective where
  | and
  | or
  deriving DecidableEq

inductive Relation where
  | implies
  | equals
  | less
  | atMost
  deriving DecidableEq

inductive Operator where
  | plus
  | minus
  | times
  | div
  deriving DecidableEq

inductive Expr where
  | constant (value : Value)
  | param (name : String)
  | fluent (name : String) (args : List Expr)
  | not (arg : Expr)
  | junction (connective : Connective) (args : List Expr)
  | relation (relation : Relation) (left right : Expr)
  | arithmetic (operator : Operator) (args : List Expr)

def Connective.name : Connective → String
  | .and => "and"
  | .or => "or"

def Relation.name : Relation → String
  | .implies => "implies"
  | .equals => "equals"
  | .less => "lt"
  | .atMost => "le"

def Operator.name : Operator → String
  | .plus => "plus"
  | .minus => "minus"
  | .times => "times"
  | .div => "div"

namespace Expr

mutual

def beq : Expr → Expr → Bool
  | .constant v, .constant w => v = w
  | .param x, .param y => x = y
  | .fluent f xs, .fluent g ys => f = g && beqAll xs ys
  | .not x, .not y => beq x y
  | .junction c xs, .junction d ys => c = d && beqAll xs ys
  | .relation r x x', .relation s y y' => r = s && (beq x y && beq x' y')
  | .arithmetic o xs, .arithmetic p ys => o = p && beqAll xs ys
  | _, _ => false

def beqAll : List Expr → List Expr → Bool
  | [], [] => true
  | x :: xs, y :: ys => beq x y && beqAll xs ys
  | _, _ => false

end

mutual

theorem beq_iff : ∀ x y : Expr, beq x y = true ↔ x = y
  | .constant v, y => by cases y <;> simp [beq]
  | .param x, y => by cases y <;> simp [beq]
  | .fluent f xs, y => by cases y <;> simp [beq, beqAll_iff xs]
  | .not x, y => by cases y <;> simp [beq, beq_iff x]
  | .junction c xs, y => by cases y <;> simp [beq, beqAll_iff xs]
  | .relation r x x', y => by cases y <;> simp [beq, beq_iff x, beq_iff x']
  | .arithmetic o xs, y => by cases y <;> simp [beq, beqAll_iff xs]

theorem beqAll_iff : ∀ xs ys : List Expr, beqAll xs ys = true ↔ xs = ys
  | [], ys => by cases ys <;> simp [beqAll]
  | x :: xs, ys => by cases ys <;> simp [beqAll, beq_iff x, beqAll_iff xs]

end

instance : DecidableEq Expr := fun x y => decidable_of_iff _ (beq_iff x y)

def bool (b : Bool) : Expr := .constant (.bool b)

def number (q : Rat) : Expr := .constant (.number q)

def object (name : String) : Expr := .constant (.object name)

def kind : Expr → String
  | .constant v => v.kind
  | .param _ => "param"
  | .fluent _ _ => "fluent"
  | .not _ => "not"
  | .junction c _ => c.name
  | .relation r _ _ => r.name
  | .arithmetic o _ => o.name

def conjunction : List Expr → Expr
  | [] => .bool true
  | [c] => c
  | cs => .junction .and cs

end Expr

structure FluentTerm where
  name : String
  args : List Expr
  deriving DecidableEq

def FluentTerm.expr (f : FluentTerm) : Expr := .fluent f.name f.args

def fluentKey (name : String) (args : List String) : String :=
  match args with
  | [] => name
  | args => name ++ "(" ++ ", ".intercalate args ++ ")"

end TemporalPlanning
