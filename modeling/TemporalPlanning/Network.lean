import TemporalPlanning.Rows

namespace TemporalPlanning

/--
As long as a network is consistent its potentials satisfy all its constraints; from then on it
stays as it is.
-/
structure Network (ν : Type) where
  potentials : OrderedMap ν Rat
  rows : Rows ν
  failure : Option (ν × ν)

namespace Network

variable {ν : Type} [DecidableEq ν]

def empty : Network ν := ⟨.empty, .empty, none⟩

def level (potentials : OrderedMap ν Rat) (a : ν) : Rat := (potentials.get? a).getD 0

/-- How the spreading of a lowered potential ends. -/
inductive Spread (ν : Type) where
  | settled (potentials : OrderedMap ν Rat)
  | tailLowered
  | unsettled

/--
Lowers the heads of a row to what a node at `base` allows, and lines up each lowered node unless it
waits already; nothing if the tail would be lowered.
-/
def lowerRow (tail : ν) (base : Rat) (waiting : List ν) :
    List (ν × Rat) → List ν → OrderedMap ν Rat → Option (List ν × OrderedMap ν Rat)
  | [], next, p => some (next, p)
  | (b, w) :: row, next, p =>
      if level p b ≤ base + w then lowerRow tail base waiting row next p
      else if b = tail then none
      else
        lowerRow tail base waiting row (if b ∈ waiting ++ next then next else next ++ [b])
          (p.put b (base + w))

def lowerPass (rows : Rows ν) (tail : ν) :
    List ν → List ν → OrderedMap ν Rat → Option (List ν × OrderedMap ν Rat)
  | [], next, p => some (next, p)
  | a :: waiting, next, p =>
      match lowerRow tail (level p a) waiting (rows.row a).entries next p with
      | none => none
      | some (next, p) => lowerPass rows tail waiting next p

def spread (rows : Rows ν) (tail : ν) : Nat → List ν → OrderedMap ν Rat → Spread ν
  | _, [], p => .settled p
  | 0, _ :: _, _ => .unsettled
  | passes + 1, waiting, p =>
      match lowerPass rows tail waiting [] p with
      | none => .tailLowered
      | some (next, p) => spread rows tail passes next p

def nodes (net : Network ν) : List ν := net.potentials.keys

def contains (net : Network ν) (a : ν) : Bool := net.potentials.contains a

def addNode (net : Network ν) (a : ν) : Network ν :=
  if net.contains a then net else { net with potentials := net.potentials.put a 0 }

def tighten (net : Network ν) (a b : ν) (w : Rat) : Network ν × Bool :=
  let net := { net with rows := net.rows.setWeight a b w }
  let candidate := level net.potentials a + w
  if level net.potentials b ≤ candidate then (net, true)
  else
    match spread net.rows a net.potentials.size [b] (net.potentials.put b candidate) with
    | .settled p => ({ net with potentials := p }, true)
    | _ => (net, false)

def addBound (net : Network ν) (a b : ν) (w : Rat) : Network ν × Bool :=
  if a = b then (net, decide (0 ≤ w))
  else
    match net.rows.weight? a b with
    | some v => if v ≤ w then (net, true) else net.tighten a b w
    | none => net.tighten a b w

def addUpper (net : Network ν) (a b : ν) : Option Rat → Network ν × Bool
  | none => (net, true)
  | some u => net.addBound a b u

def addLower (net : Network ν) (a b : ν) : Option Rat → Network ν × Bool
  | none => (net, true)
  | some l => net.addBound b a (-l)

def crossed : Option Rat → Option Rat → Bool
  | some l, some u => u < l
  | _, _ => false

def add (net : Network ν) (a b : ν) (lower upper : Option Rat) : Network ν :=
  if net.failure.isSome then net
  else
    let net := (net.addNode a).addNode b
    if crossed lower upper then { net with failure := some (a, b) }
    else
      match net.addUpper a b upper with
      | (net, false) => { net with failure := some (a, b) }
      | (net, true) =>
          match net.addLower a b lower with
          | (net, false) => { net with failure := some (a, b) }
          | (net, true) => net

def check (net : Network ν) : Bool := net.failure.isNone

def witness (net : Network ν) : Option (ν × ν) := net.failure

def model (net : Network ν) (a : ν) : Option Rat :=
  if net.failure.isSome then none else net.potentials.get? a

def upper (net : Network ν) (a b : ν) : Option Rat := net.rows.weight? a b

def lower (net : Network ν) (a b : ν) : Option Rat := (net.rows.weight? b a).map (- ·)

def edges (net : Network ν) : List (ν × ν × Rat) := net.rows.triples

end Network

end TemporalPlanning
