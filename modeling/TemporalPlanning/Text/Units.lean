
namespace TemporalPlanning.Text

def unitsOf (c : Char) : List Nat :=
  let n := c.toNat
  if n < 0x10000 then [n]
  else [0xD800 + (n - 0x10000) / 0x400, 0xDC00 + (n - 0x10000) % 0x400]

def units (s : String) : List Nat := s.toList.flatMap unitsOf

def before : List Nat → List Nat → Bool
  | [], [] => false
  | [], _ => true
  | _, [] => false
  | x :: xs, y :: ys => if x = y then before xs ys else x < y

def unitsBefore (s t : String) : Bool := before (units s) (units t)

end TemporalPlanning.Text
