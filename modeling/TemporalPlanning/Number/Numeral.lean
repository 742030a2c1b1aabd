import TemporalPlanning.Fault
import TemporalPlanning.Number.Binary64

namespace TemporalPlanning.Number

def quotient (num den : Int) : Except Fault Rat :=
  if den = 0 then .error .zeroDenominator else .ok (Rat.divInt num den)

def divide (a b : Rat) : Except Fault Rat :=
  if b = 0 then .error (.divisionByZero a) else .ok (a / b)

def order (a b : Rat) : Int := if a < b then -1 else if b < a then 1 else 0

def larger (a b : Rat) : Rat := if b ≤ a then a else b

def smaller (a b : Rat) : Rat := if a ≤ b then a else b

def Literal.value : Literal → Except Fault Rat
  | .fraction num den => quotient num den
  | .decimal negative whole frac exponent =>
      .ok (scale (signed negative (ofDigits (whole ++ frac))) (exponent - frac.length))

def parse (s : String) : Except Fault Rat :=
  match Literal.read? s with
  | some l => l.value
  | none => .error (.invalidLiteral s)

/-- Integers are worked with up to 2 ^ 30 bits, and a product with a sign needs 64 of them. -/
def greatestLength : Nat := Nat.pow 2 30 - 64

/-- Powers are worked out by squaring, in which a product needs the words of both its factors. -/
def greatestPower : Nat := 323228483

def Literal.inRange : Literal → Bool
  | .fraction _ _ => true
  | .decimal _ whole frac exponent =>
      frac.isEmpty && exponent = 0 || (exponent.natAbs ≤ greatestPower &&
        (ofDigits (whole ++ frac) * Nat.pow 10 exponent.toNat).log2 < greatestLength &&
        (Nat.pow 10 (frac.length + (-exponent).toNat)).log2 < greatestLength)

def read (s : String) : Except Fault Rat :=
  if (Literal.read? s).all Literal.inRange then parse s else .error (.exponentOutOfRange s)

def toBinary64 (q : Rat) : Binary64 := (Binary64.nearest q.num).div (Binary64.nearest q.den)

inductive Numeral where
  | exact (q : Rat)
  | integer (n : Int)
  | binary (x : Binary64)
  | text (s : String)

namespace Numeral

def ofBinary64 (x : Binary64) : Except Fault Rat :=
  match x.integer? with
  | some n => .ok n
  | none =>
      match x.shortestDecimal? with
      | some q => .ok q
      | none => .error (.notFinite x.text)

def toRat : Numeral → Except Fault Rat
  | .exact q => .ok q
  | .integer n => .ok n
  | .binary x => ofBinary64 x
  | .text s => read s

end Numeral

def integerOfText? (s : String) : Option Int :=
  let cs := Text.trim s.toList
  match Binary64.takeBase cs with
  | some (base, ds) => (Binary64.natural? base ds).map Int.ofNat
  | none =>
      if cs.isEmpty then some 0
      else match takeInteger cs with
        | some (n, []) => some n
        | _ => none

def wholeNumber (x : Binary64) : Except Fault Int :=
  match x.integer? with
  | some n => .ok n
  | none => .error .notAnInteger

end TemporalPlanning.Number
