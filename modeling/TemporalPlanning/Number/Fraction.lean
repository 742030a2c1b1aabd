import TemporalPlanning.Number.Numeral

namespace TemporalPlanning

structure Fraction where
  num : Int
  den : Int
  deriving DecidableEq

namespace Fraction

open Number (Literal Binary64 signed ofDigits intDigits)

def euclid (x y : Int) : Int :=
  if y = 0 then x else euclid y (x.tmod y)
termination_by y.natAbs
decreasing_by
  rw [Int.natAbs_tmod]
  exact Nat.mod_lt _ (by omega)

def greatestDivisor (a b : Int) : Int :=
  euclid (if a < 0 then -a else a) (if b < 0 then -b else b)

def of (num den : Int) : Except Fault Fraction :=
  if den = 0 then .error .zeroDenominator
  else
    let sign := if den < 0 then -1 else 1
    let g := greatestDivisor num den
    let g := if g = 0 then 1 else g
    .ok ⟨(sign * num).tdiv g, (sign * den).tdiv g⟩

def ofInt (n : Int) : Fraction := ⟨n, 1⟩

def value (f : Fraction) : Rat := f.num / f.den

def ofLiteral : Literal → Except Fault Fraction
  | .fraction num den => of num den
  | .decimal negative whole frac exponent =>
      let num := signed negative (ofDigits (whole ++ frac))
      let den : Int := Nat.pow 10 frac.length
      of (if 0 < exponent then num * Nat.pow 10 exponent.toNat else num)
        (if exponent < 0 then den * Nat.pow 10 (-exponent).toNat else den)

def ofText (s : String) : Except Fault Fraction :=
  match Literal.read? s with
  | some l => if l.inRange then ofLiteral l else .error (.exponentOutOfRange s)
  | none => .error (.invalidLiteral s)

def neg (a : Fraction) : Fraction := ⟨-a.num, a.den⟩

def apply : Operator → Fraction → Fraction → Except Fault Fraction
  | .plus, a, b => of (a.num * b.den + b.num * a.den) (a.den * b.den)
  | .minus, a, b => of (a.num * b.den - b.num * a.den) (a.den * b.den)
  | .times, a, b => of (a.num * b.num) (a.den * b.den)
  | .div, a, b =>
      if b.num = 0 then .error (.divisionByZero a.value) else of (a.num * b.den) (a.den * b.num)

def compare (a b : Fraction) : Int :=
  if a.num * b.den < b.num * a.den then -1
  else if b.num * a.den < a.num * b.den then 1
  else 0

def digits (a : Fraction) : List Char :=
  if a.den = 1 then intDigits a.num else intDigits a.num ++ '/' :: intDigits a.den

def text (a : Fraction) : String := String.ofList (digits a)

end Fraction

end TemporalPlanning
