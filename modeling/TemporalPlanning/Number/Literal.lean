import TemporalPlanning.Text.Blank

namespace TemporalPlanning.Number

open Text (isBlank skipBlanks trim)

inductive Literal where
  | fraction (num den : Int)
  | decimal (negative : Bool) (whole frac : List Char) (exponent : Int)
  deriving DecidableEq, Repr

def signed (negative : Bool) (n : Nat) : Int := if negative then -(n : Int) else n

def ofDigits (cs : List Char) : Nat := Nat.ofDigitChars 10 cs 0

def takeSign : List Char → Bool × List Char
  | '-' :: cs => (true, cs)
  | '+' :: cs => (false, cs)
  | cs => (false, cs)

def takeInteger (cs : List Char) : Option (Int × List Char) :=
  let (negative, cs) := takeSign cs
  match cs.takeWhile Char.isDigit with
  | [] => none
  | ds => some (signed negative (ofDigits ds), cs.dropWhile Char.isDigit)

def fraction? (cs : List Char) : Option Literal :=
  match takeInteger cs with
  | none => none
  | some (num, rest) =>
      match skipBlanks rest with
      | '/' :: rest =>
          match takeInteger (skipBlanks rest) with
          | some (den, []) => some (.fraction num den)
          | _ => none
      | _ => none

def takeFraction : List Char → List Char × List Char
  | '.' :: cs => (cs.takeWhile Char.isDigit, cs.dropWhile Char.isDigit)
  | cs => ([], cs)

def exponent? : List Char → Option Int
  | [] => some 0
  | c :: cs =>
      if c = 'e' ∨ c = 'E' then
        match takeInteger cs with
        | some (n, []) => some n
        | _ => none
      else none

def decimal? (cs : List Char) : Option Literal :=
  let (negative, cs) := takeSign cs
  let whole := cs.takeWhile Char.isDigit
  let (frac, rest) := takeFraction (cs.dropWhile Char.isDigit)
  if whole.isEmpty && frac.isEmpty then none
  else (exponent? rest).map fun n => .decimal negative whole frac n

def Literal.read? (s : String) : Option Literal :=
  let cs := trim s.toList
  match fraction? cs with
  | some l => some l
  | none => decimal? cs

def scale (n k : Int) : Rat :=
  if 0 ≤ k then Rat.divInt (n * Nat.pow 10 k.toNat) 1 else Rat.divInt n (Nat.pow 10 (-k).toNat)

def intDigits (n : Int) : List Char :=
  if n < 0 then '-' :: Nat.toDigits 10 n.natAbs else Nat.toDigits 10 n.natAbs

def digits (q : Rat) : List Char :=
  if q.den = 1 then intDigits q.num else intDigits q.num ++ '/' :: Nat.toDigits 10 q.den

def text (q : Rat) : String := String.ofList (digits q)

end TemporalPlanning.Number
