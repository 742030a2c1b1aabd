import TemporalPlanning.Number.Literal

namespace TemporalPlanning.Number

inductive Binary64 where
  | nan
  | infinite (negative : Bool)
  | finite (negative : Bool) (significand : Nat) (exponent : Int)
  deriving DecidableEq, Repr

def roundQuotient (n d : Nat) : Nat :=
  let q := n / d
  let r := n % d
  if 2 * r < d then q
  else if 2 * r > d then q + 1
  else if q % 2 = 0 then q
  else q + 1

def significandAt (n d : Nat) (e : Int) : Nat :=
  if 0 ≤ e then roundQuotient n (d * Nat.pow 2 e.toNat)
  else roundQuotient (n * Nat.pow 2 (-e).toNat) d

def reachesPower (n d : Nat) (e : Int) : Bool :=
  if 0 ≤ e then d * Nat.pow 2 e.toNat ≤ n else d ≤ n * Nat.pow 2 (-e).toNat

namespace Binary64

def zero : Binary64 := .finite false 0 (-1074)

def ofQuotient (negative : Bool) (n d : Nat) : Binary64 :=
  if n = 0 then .finite negative 0 (-1074)
  else
    let size : Int := (n.log2 : Int) - (d.log2 : Int)
    let top : Int := if reachesPower n d size then size else size - 1
    let e : Int := if top - 52 < -1074 then -1074 else top - 52
    let m := significandAt n d e
    let (m, e) := if m = Nat.pow 2 53 then (Nat.pow 2 52, e + 1) else (m, e)
    if 971 < e then .infinite negative else .finite negative m e

def nearest (q : Rat) : Binary64 := ofQuotient (decide (q < 0)) q.num.natAbs q.den

def magnitude? : Binary64 → Option Rat
  | .finite _ m e =>
      some (if 0 ≤ e then Rat.divInt (m * Nat.pow 2 e.toNat) 1
        else Rat.divInt m (Nat.pow 2 (-e).toNat))
  | _ => none

def isNegative : Binary64 → Bool
  | .nan => false
  | .infinite s => s
  | .finite s _ _ => s

def withSign (negative : Bool) (q : Rat) : Rat := if negative then -q else q

def value? (x : Binary64) : Option Rat := x.magnitude?.map (withSign x.isNegative)

def integer? (x : Binary64) : Option Int :=
  match x.value? with
  | some q => if q.den = 1 then some q.num else none
  | none => none

def bits : Binary64 → Nat
  | .nan => 0x7FF8000000000000
  | .infinite s => (if s then 0x8000000000000000 else 0) + 0x7FF0000000000000
  | .finite s m e =>
      (if s then 0x8000000000000000 else 0) +
        (if m < Nat.pow 2 52 then m else (e + 1075).toNat * Nat.pow 2 52 + (m - Nat.pow 2 52))

def div (x y : Binary64) : Binary64 :=
  let s := x.isNegative != y.isNegative
  match x.magnitude?, y.magnitude? with
  | some a, some b =>
      if b = 0 then (if a = 0 then .nan else .infinite s)
      else
        let q := a / b
        ofQuotient s q.num.natAbs q.den
  | some _, none => if y = .nan then .nan else .finite s 0 (-1074)
  | none, some _ => if x = .nan then .nan else .infinite s
  | none, none => .nan

def readBack (x : Binary64) (a unit : Rat) (low : Nat) : Option Rat :=
  let below := (low : Rat) * unit
  let above := ((low + 1 : Nat) : Rat) * unit
  let hits (q : Rat) : Bool := ofQuotient x.isNegative q.num.natAbs q.den = x
  let first := a - below
  let second := above - a
  let lowFirst := first < second || (first = second && low % 2 = 0)
  match hits below, hits above with
  | true, true => some (if lowFirst then below else above)
  | true, false => some below
  | false, true => some above
  | false, false => none

def decimalSize (q : Rat) : Int :=
  let k : Int := (Nat.toDigits 10 q.num.natAbs).length - (Nat.toDigits 10 q.den).length
  if q < scale 1 k then k else k + 1

/-- Tries the grids of `n`, `n + 1`, ... digits; with no digit left the number stays exact. -/
def shortestFrom (x : Binary64) (a : Rat) (n : Nat) : Nat → Rat
  | 0 => a
  | left + 1 =>
      let unit := scale 1 (decimalSize a - n)
      match readBack x a unit (a / unit).floor.toNat with
      | some q => q
      | none => shortestFrom x a (n + 1) left

def shortestDecimal? (x : Binary64) : Option Rat :=
  x.magnitude?.map fun a =>
    withSign x.isNegative (if a = 0 then 0 else shortestFrom x a 1 17)

def text : Binary64 → String
  | .nan => "NaN"
  | .infinite true => "-Infinity"
  | .infinite false => "Infinity"
  | x@(.finite _ _ _) => (x.shortestDecimal?.map Number.text).getD ""

def natural? (base : Nat) (cs : List Char) : Option Nat :=
  let place (c : Char) : Nat :=
    if c.isDigit then c.toNat - 48
    else if 'a' ≤ c ∧ c ≤ 'z' then c.toNat - 87
    else if 'A' ≤ c ∧ c ≤ 'Z' then c.toNat - 55
    else base
  if cs.isEmpty || cs.any (fun c => base ≤ place c) then none
  else some (cs.foldl (fun n c => base * n + place c) 0)

/--
The nearest number to `n` with its point moved `k` places to the right. All decimals from 10 ^ 310
on go to infinity, and all below 10 ^ -330 go to zero.
-/
def ofDecimal (negative : Bool) (n : Nat) (k : Int) : Binary64 :=
  let size : Int := (Nat.toDigits 10 n).length + k
  if n = 0 ∨ size < -330 then .finite negative 0 (-1074)
  else if 310 < size then .infinite negative
  else
    let q := scale n k
    ofQuotient negative q.num.natAbs q.den

def decimalValue : Literal → Binary64
  | .fraction _ _ => .nan
  | .decimal negative whole frac n =>
      ofDecimal negative (ofDigits (whole ++ frac)) (n - frac.length)

def takeBase : List Char → Option (Nat × List Char)
  | '0' :: 'x' :: cs => some (16, cs)
  | '0' :: 'X' :: cs => some (16, cs)
  | '0' :: 'o' :: cs => some (8, cs)
  | '0' :: 'O' :: cs => some (8, cs)
  | '0' :: 'b' :: cs => some (2, cs)
  | '0' :: 'B' :: cs => some (2, cs)
  | _ => none

/--
The number that a text denotes: a decimal, an infinity, or digits after the mark for a base.
Blanks around it are skipped, nothing at all is zero, all else is no number.
-/
def ofText (s : String) : Binary64 :=
  let cs := Text.trim s.toList
  match takeBase cs with
  | some (base, ds) => ((natural? base ds).map fun n => ofQuotient false n 1).getD .nan
  | none =>
      let (negative, rest) := takeSign cs
      if cs.isEmpty then zero
      else if rest = "Infinity".toList then .infinite negative
      else ((decimal? cs).map decimalValue).getD .nan

end Binary64

end TemporalPlanning.Number
